import Mathlib.Data.List.Basic
import LoxLex.Scanner
import LoxLex.Proofs.Piece.Stand

/-!
# Placed pieces

`place` gives every piece the offset and the line that the text before it amounts to (`mem_place`),
and places a sequence part by part (`place_append`). A fresh scanner that reads its whole source
ends with the outcome of `scan` (`result_scanAll_ofSource`).
-/

namespace LoxLex

theorem Piece.fault?_cases {p : Piece} {fault : Fault} (h : p.fault? = some fault) :
    (∃ c, p = .foreign c ∧ fault = .unexpectedCharacter c) ∨
      ∃ body, p = .unclosed body ∧ fault = .unterminatedString := by
  cases p with
  | foreign c =>
    cases h
    exact .inl ⟨c, rfl, rfl⟩
  | unclosed body =>
    cases h
    exact .inr ⟨body, rfl, rfl⟩
  | symbol _ | comment _ | blank _ | quoted _ | numeral _ | word _ => cases h

namespace Placed

variable {x : Placed}

theorem of_token? {t : Token} (h : x.token? = some t) :
    t.lexeme = x.piece.text ∧ t.offset = x.offset ∧ t.line = x.line := by
  obtain ⟨a, -, rfl⟩ := Option.map_eq_some_iff.mp h
  exact ⟨rfl, rfl, rfl⟩

theorem stop_of_token? {t : Token} (h : x.token? = some t) :
    t.stop = (x.offset + x.piece.text.length : Nat) := by
  obtain ⟨hlex, ho, -⟩ := of_token? h
  rw [Token.stop, hlex, ho, Int.natCast_add]

/-- No piece stands for the end of the input. -/
theorem kind_of_token? {t : Token} (h : x.token? = some t) : t.kind ≠ .endOfInput := by
  obtain ⟨a, ha, rfl⟩ := Option.map_eq_some_iff.mp h
  cases hp : x.piece with
  | symbol _ | quoted _ | numeral _ =>
    rw [hp] at ha
    cases ha
    exact nofun
  | word w =>
    rw [hp] at ha
    cases ha
    show Kind.ofWord w ≠ .endOfInput
    unfold Kind.ofWord
    split <;> exact nofun
  | comment _ | blank _ | unclosed _ | foreign _ => rw [hp] at ha; cases ha

theorem token?_eq_none (h : x.piece.token? = none) : x.token? = none := by
  rw [token?, h]
  rfl

theorem diagnostic?_eq_none (h : x.piece.fault? = none) : x.diagnostic? = none := by
  rw [diagnostic?, h]
  rfl

theorem line_of_diagnostic? {d : Diagnostic} (h : x.diagnostic? = some d) : d.line = x.endLine := by
  obtain ⟨a, -, rfl⟩ := Option.map_eq_some_iff.mp h
  rfl

theorem of_diagnostic? {d : Diagnostic} (h : x.diagnostic? = some d) :
    (∃ c, x.piece = .foreign c ∧ d = (Fault.unexpectedCharacter c).diagnostic x.endLine) ∨
      ∃ body, x.piece = .unclosed body ∧ d = Fault.unterminatedString.diagnostic x.endLine := by
  obtain ⟨fault, hf, rfl⟩ := Option.map_eq_some_iff.mp h
  obtain ⟨c, hp, rfl⟩ | ⟨body, hp, rfl⟩ := Piece.fault?_cases hf
  · exact .inl ⟨c, hp, rfl⟩
  · exact .inr ⟨body, hp, rfl⟩

end Placed

variable {offset line : Nat} {ps qs : List Piece}

theorem place_append :
    place offset line (ps ++ qs) = place offset line ps ++
      place (offset + (ps.flatMap Piece.text).length)
        (line + Text.newlines (ps.flatMap Piece.text)) qs := by
  induction ps generalizing offset line with
  | nil => simp [place]
  | cons p ps ih =>
    simp only [List.cons_append, place, ih, List.flatMap_cons, List.length_append,
      Text.newlines_append, Nat.add_assoc]

theorem map_piece_place (offset line : Nat) (ps : List Piece) :
    (place offset line ps).map Placed.piece = ps := by
  induction ps generalizing offset line with
  | nil => rfl
  | cons p ps ih => rw [place, List.map_cons, ih]

theorem mem_place {x : Placed} (h : x ∈ place offset line ps) :
    ∃ before after, ps = before ++ x.piece :: after ∧
      x.offset = offset + (before.flatMap Piece.text).length ∧
      x.line = line + Text.newlines (before.flatMap Piece.text) := by
  induction ps generalizing offset line with
  | nil => cases h
  | cons p ps ih =>
    rw [place] at h
    obtain rfl | h := List.mem_cons.mp h
    · exact ⟨[], ps, rfl, rfl, rfl⟩
    · obtain ⟨before, after, hps, ho, hl⟩ := ih h
      refine ⟨p :: before, after, by rw [hps, List.cons_append], ?_, ?_⟩
      · rw [ho, List.flatMap_cons, List.length_append, Nat.add_assoc]
      · rw [hl, List.flatMap_cons, Text.newlines_append, Nat.add_assoc]

/-- The pieces one after the other, the first of them after the text `before`. -/
def placeAfter (before : Text) (ps : List Piece) : List Placed :=
  place before.length (1 + Text.newlines before) ps

theorem placeAfter_append (before : Text) (ps qs : List Piece) :
    placeAfter before (ps ++ qs) =
      placeAfter before ps ++ placeAfter (before ++ ps.flatMap Piece.text) qs := by
  simp only [placeAfter, place_append, List.length_append, Text.newlines_append, Nat.add_assoc]

theorem placeAfter_cons (before : Text) (p : Piece) (ps : List Piece) :
    placeAfter before (p :: ps) =
      ⟨before.length, 1 + Text.newlines before, p⟩ :: placeAfter (before ++ p.text) ps := by
  simp only [placeAfter, place, List.length_append, Text.newlines_append, Nat.add_assoc]

theorem filterMap_placeAfter_cons {α : Type} (f : Placed → Option α) (before : Text) (p : Piece)
    (ps : List Piece) :
    (placeAfter before (p :: ps)).filterMap f =
      (f ⟨before.length, 1 + Text.newlines before, p⟩).toList ++
        (placeAfter (before ++ p.text) ps).filterMap f := by
  rw [placeAfter_cons, List.filterMap_cons]
  cases f ⟨before.length, 1 + Text.newlines before, p⟩ <;> rfl

theorem mem_placeAfter {x : Placed} {before : Text} (h : x ∈ placeAfter before ps) :
    ∃ qs rs, ps = qs ++ x.piece :: rs ∧ x.offset = (before ++ qs.flatMap Piece.text).length ∧
      x.line = 1 + Text.newlines (before ++ qs.flatMap Piece.text) := by
  obtain ⟨qs, rs, hps, ho, hl⟩ := mem_place h
  refine ⟨qs, rs, hps, ?_, ?_⟩
  · rw [ho, List.length_append]
  · rw [hl, Text.newlines_append, Nat.add_assoc]

/-- A piece lies within the text of the pieces it is placed with. -/
theorem bounds_of_mem_placeAfter {x : Placed} {before : Text} (h : x ∈ placeAfter before ps) :
    before.length ≤ x.offset ∧
      x.offset + x.piece.text.length ≤ (before ++ ps.flatMap Piece.text).length := by
  obtain ⟨qs, rs, rfl, ho, -⟩ := mem_placeAfter h
  simp only [ho, List.length_append, List.flatMap_append, List.flatMap_cons]
  omega

/-- Pieces that stand for nothing give no tokens, and pieces without a fault no diagnostics. -/
theorem filterMap_placeAfter_eq_nil {α : Type} {f : Placed → Option α} {before : Text}
    {ps : List Piece} (h : ∀ x : Placed, x.piece ∈ ps → f x = none) :
    (placeAfter before ps).filterMap f = [] := by
  refine List.filterMap_eq_nil_iff.mpr fun x hx => ?_
  obtain ⟨_, _, hps, -, -⟩ := mem_placeAfter hx
  exact h x (by simp [hps])

def withCode (code : Text) (ds : List Diagnostic) : List Diagnostic :=
  ds.filter fun d => d.code = some code

theorem withCode_append (code : Text) (ds es : List Diagnostic) :
    withCode code (ds ++ es) = withCode code ds ++ withCode code es := List.filter_append ..

/-- What a diagnostic is about is the fault of one of the pieces. -/
theorem exists_fault_of_mem {d : Diagnostic} {before : Text}
    (h : d ∈ (placeAfter before ps).filterMap Placed.diagnostic?) :
    ∃ p ∈ ps, ∃ fault, p.fault? = some fault ∧ d.code = some fault.code := by
  obtain ⟨x, hx, hxd⟩ := List.mem_filterMap.mp h
  obtain ⟨fault, hf, rfl⟩ := Option.map_eq_some_iff.mp hxd
  obtain ⟨_, _, hps, -, -⟩ := mem_placeAfter hx
  exact ⟨x.piece, by simp [hps], fault, hf, rfl⟩

/-- A code has no diagnostics if no piece has a fault of that code. -/
theorem withCode_eq_nil {code before : Text}
    (h : ∀ p ∈ ps, ∀ fault, p.fault? = some fault → fault.code ≠ code) :
    withCode code ((placeAfter before ps).filterMap Placed.diagnostic?) = [] := by
  refine List.filter_eq_nil_iff.mpr fun d hd hc => ?_
  obtain ⟨p, hp, fault, hf, hcode⟩ := exists_fault_of_mem hd
  exact h p hp fault hf (Option.some.inj (hcode.symm.trans (of_decide_eq_true hc)))

/-- A code has all the diagnostics if no piece has a fault of another code. -/
theorem withCode_eq_self {code before : Text}
    (h : ∀ p ∈ ps, ∀ fault, p.fault? = some fault → fault.code = code) :
    withCode code ((placeAfter before ps).filterMap Placed.diagnostic?) =
      (placeAfter before ps).filterMap Placed.diagnostic? := by
  refine List.filter_eq_self.mpr fun d hd => ?_
  obtain ⟨p, hp, fault, hf, hcode⟩ := exists_fault_of_mem hd
  exact decide_eq_true (hcode.trans (congrArg some (h p hp fault hf)))

theorem wellFormed_of_mem_placeAfter {x : Placed} {source : Text}
    (h : x ∈ placeAfter [] (pieces source)) : x.piece.WellFormed := by
  obtain ⟨before, after, hps, -, -⟩ := mem_placeAfter h
  exact (stand_pieces source).wellFormed x.piece (by simp [hps])

/-- No piece starts before the offset and the line at which an earlier piece ends. -/
theorem pairwise_place :
    (place offset line ps).Pairwise fun x y =>
      x.offset + x.piece.text.length ≤ y.offset ∧ x.endLine ≤ y.line := by
  induction ps generalizing offset line with
  | nil => exact .nil
  | cons p ps ih =>
    refine .cons (fun y hy => ?_) ih
    obtain ⟨before, -, -, ho, hl⟩ := mem_place hy
    constructor
    · show offset + p.text.length ≤ y.offset
      omega
    · show line + Text.newlines p.text ≤ y.line
      omega

theorem Text.newlines_singleton_of_ne {c : Char} (h : c ≠ '\n') : newlines [c] = 0 :=
  List.count_eq_zero_of_not_mem (by simpa using h.symm)

/-- A line ends in a blank, so no unexpected character ends one. -/
theorem newlines_foreign {c : Char} (h : Lead.of c = .foreign) : Text.newlines [c] = 0 :=
  Text.newlines_singleton_of_ne (by rintro rfl; cases h)

theorem scan_eq (source : Text) :
    scan source = {
      tokens := (placeAfter [] (pieces source)).filterMap Placed.token? ++
        [endToken source.length (1 + Text.newlines source)]
      diagnostics := (placeAfter [] (pieces source)).filterMap Placed.diagnostic?
      line := 1 + Text.newlines source } := by
  simp only [scan, scanFrom, Scan.ofPlaced, Nat.zero_add]
  rfl

theorem result_scanAll_ofSource (source : Text) :
    (Scanner.ofSource source).scanAll.1.result = scan source := by
  simp only [Scanner.scanAll, Scanner.ofSource, Scanner.result, Scanner.remaining, Scan.ofPlaced,
    scan, scanFrom, Bool.false_eq_true, if_false, List.drop_zero, List.nil_append, Nat.zero_add]

end LoxLex
