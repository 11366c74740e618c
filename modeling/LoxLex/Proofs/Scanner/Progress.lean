import LoxLex.Proofs.Scanner.Reading

/-!
# The loop of a scan

`Progress s t` is what one round of the loop does to a scanner: it goes on by at least one character
and not past the end, and finds at most one thing. `Rounds n s t` counts rounds. There are no more
of them than characters left (`Rounds.le`), there is always a next one before the end
(`exists_rounds`), and what they come to is what `scanAll` gives (`Rounds.scanAll_eq`).
-/

namespace LoxLex

namespace Scanner

/-- From `s` to `t` a token for the whole lexeme has been found, or a fault, or nothing. -/
inductive Finds (s t : Scanner) : Prop where
  | token (x : Token) (tokens : t.tokens = s.tokens ++ [x]) (errors : t.errors = s.errors)
      (lexeme : x.lexeme = t.lexeme) (offset : x.offset = t.start) (line : x.line = t.startLine)
  | fault (d : Diagnostic) (tokens : t.tokens = s.tokens) (errors : t.errors = s.errors ++ [d])
  | nothing (tokens : t.tokens = s.tokens) (errors : t.errors = s.errors)

structure Progress (s t : Scanner) : Prop where
  source : t.source = s.source
  finished : t.finished = s.finished
  start : t.start = s.current
  startLine : t.startLine = s.line
  start_lt : t.start < t.current
  current_le : t.current ≤ t.source.length
  line : t.line = s.line + Text.newlines t.lexeme
  finds : Finds s t

/-- `n` rounds of the loop, none of them begun at the end of the source. -/
inductive Rounds : Nat → Scanner → Scanner → Prop where
  | refl (s : Scanner) : Rounds 0 s s
  | step {n : Nat} {s t u : Scanner} : s.isAtEnd = false → s.read? = some t → Rounds n t u →
      Rounds (n + 1) s u

/-- What is done when the loop has ended. -/
def closed (s : Scanner) : Scanner :=
  { s with tokens := s.tokens ++ [endToken s.source.length s.line], finished := true }

variable {s t u : Scanner} {c : Char} {rest : Text} {p : Piece} {n : Nat}

theorem isAtEnd_eq_false_iff : s.isAtEnd = false ↔ s.current < s.source.length := by
  rw [isAtEnd, decide_eq_false_iff_not, Nat.not_le]

theorem remaining_eq_cons (h : s.current < s.source.length) : ∃ c rest, s.remaining = c :: rest :=
  ⟨_, _, List.drop_eq_getElem_cons h⟩

/-! ## One round -/

theorem finds_finding (h : s.remaining = p.text ++ rest) :
    Finds s ((s.begun.passing p.text).finding p) := by
  cases htoken : p.token? with
  | some found =>
    rw [finding_token h htoken]
    exact .token _ rfl rfl rfl rfl rfl
  | none =>
    cases hfault : p.fault? with
    | some fault =>
      rw [finding_fault hfault]
      exact .fault _ rfl rfl
    | none =>
      rw [finding_none htoken hfault]
      exact .nothing rfl rfl

theorem progress_step (h : s.remaining = c :: rest) : Progress s s.step := by
  have htext := remaining_split h
  have hpos := (Piece.split_stops c rest).1.length_pos
  have hlength : s.source.length - s.current =
      (Piece.split c rest).1.text.length + (Piece.split c rest).2.length := by
    rw [← List.length_drop, ← List.length_append]
    exact congrArg List.length htext
  rw [step_eq h]
  generalize (Piece.split c rest).1 = p at *
  exact {
    source := rfl
    finished := rfl
    start := rfl
    startLine := rfl
    start_lt := Nat.lt_add_of_pos_right hpos
    current_le := by
      show s.current + p.text.length ≤ s.source.length
      omega
    line := by
      show s.line + Text.newlines p.text = s.line + Text.newlines (s.begun.passing p.text).lexeme
      rw [lexeme_passing htext]
    finds := finds_finding htext }

theorem read?_eq_some (h : s.current < s.source.length) :
    s.read? = some s.step ∧ Progress s s.step := by
  obtain ⟨c, rest, h⟩ := remaining_eq_cons h
  exact ⟨read?_eq_step h, progress_step h⟩

theorem Progress.length_found (h : Progress s t) :
    t.tokens.length + t.errors.length ≤ s.tokens.length + s.errors.length + 1 := by
  cases h.finds with
  | token x tokens errors _ _ _ =>
    rw [tokens, errors, List.length_append, List.length_singleton]
    omega
  | fault d tokens errors =>
    rw [tokens, errors, List.length_append, List.length_singleton]
    omega
  | nothing tokens errors =>
    rw [tokens, errors]
    omega

/-! ## All rounds -/

theorem progress_of_read? (hend : s.isAtEnd = false) (hread : s.read? = some t) :
    t = s.step ∧ Progress s t := by
  obtain ⟨hstep, hprogress⟩ := read?_eq_some (isAtEnd_eq_false_iff.mp hend)
  cases hread.symm.trans hstep
  exact ⟨rfl, hprogress⟩

namespace Rounds

theorem le (h : Rounds n s t) : n ≤ s.source.length - s.current := by
  induction h with
  | refl s => exact Nat.zero_le _
  | @step n s t u hend hread _ ih =>
    obtain ⟨-, hp⟩ := progress_of_read? hend hread
    have hlt : s.current < t.current := hp.start ▸ hp.start_lt
    have hle : t.current ≤ s.source.length := hp.source ▸ hp.current_le
    rw [hp.source] at ih
    omega

theorem length_found (h : Rounds n s t) :
    t.tokens.length + t.errors.length ≤ s.tokens.length + s.errors.length + n := by
  induction h with
  | refl s => exact Nat.le_refl _
  | step hend hread _ ih =>
    have := (progress_of_read? hend hread).2.length_found
    omega

end Rounds

/-- Before the end there is always a next round, so the rounds get there. -/
theorem exists_rounds (s : Scanner) : ∃ n t, Rounds n s t ∧ t.isAtEnd = true := by
  induction hk : s.source.length - s.current using Nat.strongRecOn generalizing s with
  | _ k ih =>
    cases hend : s.isAtEnd with
    | true => exact ⟨0, s, .refl s, hend⟩
    | false =>
      have hlt := isAtEnd_eq_false_iff.mp hend
      obtain ⟨hread, hp⟩ := read?_eq_some hlt
      have hless : s.step.source.length - s.step.current < k := by
        have := hp.start_lt
        rw [hp.source]
        rw [hp.start] at this
        omega
      obtain ⟨n, t, hrounds, ht⟩ := ih _ hless s.step rfl
      exact ⟨n + 1, t, .step hend hread hrounds, ht⟩

/-! ## The scan -/

theorem scanAll_step (h : s.remaining = c :: rest) (hs : s.finished = false) :
    s.step.scanAll.1 = s.scanAll.1 := by
  have htext := remaining_split h
  have hpieces : pieces s.remaining =
      (Piece.split c rest).1 :: pieces (Piece.split c rest).2 := by
    rw [h, pieces]
  have hnext : s.step.remaining = (Piece.split c rest).2 := by
    rw [step_eq h]
    exact remaining_passing (s := s.begun) htext
  have hfinished : s.step.finished = false := (progress_step h).finished.trans hs
  rw [scanAll, if_neg (by simp [hfinished]), scanAll, if_neg (by simp [hs])]
  simp only [hnext, hpieces, place, Scan.ofPlaced, List.getLast?_cons,
    List.filterMap_eq_flatMap_toList, List.flatMap_cons, Option.map_some, Option.getD_some]
  rw [htext, step_eq h]
  simp only [finding, passing, begun, Text.newlines_append, Nat.add_assoc, List.append_assoc]
  rw [← Option.getD_map Placed.offset, ← Option.getD_map Placed.line]

theorem scanAll_of_isAtEnd (h : s.current = s.source.length) (hs : s.finished = false) :
    s.scanAll.1 = s.closed := by
  have hremaining : s.remaining = [] := List.drop_of_length_le (Nat.le_of_eq h.symm)
  rw [scanAll, if_neg (by simp [hs]), hremaining]
  simp only [pieces, place, closed, Scan.ofPlaced, List.filterMap_nil, List.nil_append,
    List.append_nil, List.getLast?_nil, Option.map_none, Option.getD_none, Text.newlines_nil,
    Nat.add_zero, h]

/-- Reading the whole source in one go is going through the rounds. -/
theorem Rounds.scanAll_eq (h : Rounds n s t) (hend : t.isAtEnd = true) (hs : s.finished = false)
    (hle : s.current ≤ s.source.length) : s.scanAll.1 = t.closed := by
  induction h with
  | refl s =>
    have hge : s.source.length ≤ s.current := of_decide_eq_true hend
    exact scanAll_of_isAtEnd (Nat.le_antisymm hle hge) hs
  | step hmore hread _ ih =>
    obtain ⟨rfl, hp⟩ := progress_of_read? hmore hread
    obtain ⟨c, rest, hrest⟩ := remaining_eq_cons (isAtEnd_eq_false_iff.mp hmore)
    rw [← scanAll_step hrest hs]
    exact ih hend (hp.finished.trans hs) hp.current_le

/-- A scan finds at most one thing for each character that was left, and the end. -/
theorem length_scanAll_le (hs : s.finished = false) (hle : s.current ≤ s.source.length) :
    s.scanAll.1.tokens.length + s.scanAll.1.errors.length ≤
      s.tokens.length + s.errors.length + (s.source.length - s.current) + 1 := by
  obtain ⟨n, t, hrounds, hend⟩ := exists_rounds s
  have hn := hrounds.le
  have hfound := hrounds.length_found
  rw [hrounds.scanAll_eq hend hs hle]
  simp only [closed, List.length_append, List.length_singleton]
  omega

/-- Before the end of the source a round reads no character that is not there and makes progress.
So the loop ends, after no more rounds than characters were left, with what a scan gives. -/
theorem scan_progress :
    (∀ s : Scanner, s.current < s.source.length →
      s.read? = some s.step ∧ Progress s s.step) ∧
    (∀ s : Scanner, (∀ n t, Rounds n s t → n ≤ s.source.length - s.current) ∧
      ∃ n t, Rounds n s t ∧ t.isAtEnd = true ∧
        (s.finished = false → s.current ≤ s.source.length → s.scanAll.1 = t.closed)) ∧
    ∀ source : Text,
      (scan source).tokens.length + (scan source).diagnostics.length ≤ source.length + 1 := by
  refine ⟨fun s => read?_eq_some, fun s => ⟨fun n t => Rounds.le, ?_⟩, fun source => ?_⟩
  · obtain ⟨n, t, hrounds, hend⟩ := exists_rounds s
    exact ⟨n, t, hrounds, hend, hrounds.scanAll_eq hend⟩
  · have hfound := length_scanAll_le (s := ofSource source) rfl (Nat.zero_le _)
    rw [← result_scanAll_ofSource]
    simpa [ofSource, result] using hfound

/-- A string that does not end, read from its quote on. Its last character is the one that `peek`
also gives behind the end. -/
theorem scan_progress_at_quote :
    let s : Scanner := { source := ['a', '"', '\n', '\x00'], current := 1, line := 7 }
    s.current < s.source.length ∧ s.finished = false ∧
      (s.read? = some s.step ∧ Progress s s.step) ∧
      (s.step.current, s.step.line, s.step.tokens, s.step.errors.length) = (4, 8, [], 1) ∧
      ∃ n t, n ≤ 3 ∧ Rounds n s t ∧ s.scanAll.1 = t.closed := by
  intro s
  obtain ⟨hround, hloop, -⟩ := scan_progress
  obtain ⟨hle, n, t, hrounds, -, hscan⟩ := hloop s
  exact ⟨by decide, rfl, hround s (by decide), by decide, n, t, hle n t hrounds, hrounds,
    hscan rfl (by decide)⟩

end Scanner

end LoxLex
