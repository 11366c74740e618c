import LoxLex.Proofs.Scan.Order
import LoxLex.Proofs.Scan.Rewriting

/-!
# Comments

A comment goes to the end of its line, and what follows it is a line break or nothing, so it may be
taken out without joining its neighbours. `scan_uncommented` compares a source with the same source
without its comments: nothing but offsets changes, and no comment is left.
-/

namespace LoxLex

def Piece.isComment : Piece → Bool
  | comment _ => true
  | _ => false

/-- The character at offset `i` is one of the piece. -/
def Placed.covers (x : Placed) (i : Nat) : Bool :=
  x.offset ≤ i && i < x.offset + x.piece.text.length

/-- The comments that a scan passes over. -/
def comments (source : Text) : List Placed :=
  (placeAfter [] (pieces source)).filter fun x => x.piece.isComment

/-- The source less all characters of its comments. -/
def uncommented (source : Text) : Text :=
  (source.zipIdx.filter fun (_, i) => !(comments source).any fun x => x.covers i).map Prod.fst

/-- The length of all comments before the offset. -/
def commentedBefore (source : Text) (offset : Int) : Nat :=
  (((comments source).filter fun x => x.offset < offset).flatMap fun x => x.piece.text).length

/-! ## What stands around a comment -/

/-- Behind a comment there is a line break or nothing. -/
theorem Stand.after_comment {body : Text} {ps : List Piece} (h : Stand (.comment body :: ps) []) :
    ps = [] ∨ ∃ qs, ps = .blank '\n' :: qs := by
  cases ps with
  | nil => exact .inl rfl
  | cons p qs =>
    obtain ⟨-, hs, hp, hps, -⟩ := h
    obtain ⟨c, w, e⟩ := hp.exists_cons
    have hc : c = '\n' := by
      rw [List.append_nil, List.flatMap_cons, e] at hs
      have := hs c rfl
      simpa using this
    subst hc
    -- a line break starts no other piece than itself
    have hsplit : Piece.split '\n' (w ++ qs.flatMap Piece.text) =
        (.blank '\n', w ++ qs.flatMap Piece.text) := rfl
    rw [List.append_nil] at hps
    rw [Piece.split_of_stops e hp hps] at hsplit
    obtain ⟨rfl, -⟩ := Prod.mk.inj hsplit
    exact .inr ⟨qs, rfl⟩

/-! ## Pieces -/

def kept (ps : List Piece) : List Piece := ps.filter fun p => !p.isComment

def keptText (ps : List Piece) : Text := (kept ps).flatMap Piece.text

variable {p : Piece} {ps qs done : List Piece} {source : Text}

theorem kept_append (ps qs : List Piece) : kept (ps ++ qs) = kept ps ++ kept qs :=
  List.filter_append ..

theorem kept_cons_comment (h : p.isComment = true) (ps : List Piece) :
    kept (p :: ps) = kept ps := by
  rw [kept, List.filter_cons_of_neg (by simp [h]), kept]

theorem kept_cons (h : p.isComment = false) (ps : List Piece) :
    kept (p :: ps) = p :: kept ps := by
  rw [kept, List.filter_cons_of_pos (by simp [h]), kept]

theorem keptText_append (ps qs : List Piece) :
    keptText (ps ++ qs) = keptText ps ++ keptText qs := by
  rw [keptText, kept_append, List.flatMap_append, keptText, keptText]

theorem keptText_cons_comment (h : p.isComment = true) (ps : List Piece) :
    keptText (p :: ps) = keptText ps := by
  rw [keptText, kept_cons_comment h, keptText]

theorem keptText_cons (h : p.isComment = false) (ps : List Piece) :
    keptText (p :: ps) = p.text ++ keptText ps := by
  rw [keptText, kept_cons h, List.flatMap_cons, keptText]

theorem Piece.exists_body (h : p.isComment = true) : ∃ body, p = comment body := by
  cases p with
  | comment body => exact ⟨body, rfl⟩
  | _ => cases h

/-- Where a comment is taken out, a line break comes next or nothing. -/
theorem keptText_of_comment (h : Stand (p :: ps) []) (hp : p.isComment = true) :
    keptText (p :: ps) = [] ∨ ∃ t, keptText (p :: ps) = '\n' :: t := by
  obtain ⟨body, rfl⟩ := Piece.exists_body hp
  rw [keptText_cons_comment hp]
  rcases h.after_comment with rfl | ⟨qs, rfl⟩
  · exact .inl rfl
  · exact .inr ⟨keptText qs, keptText_cons rfl qs⟩

theorem EndsRun.keptText {q : Char → Bool} (hq : q '\n' = false) (h : Stand ps [])
    (hr : EndsRun q (ps.flatMap Piece.text)) : EndsRun q (keptText ps) := by
  cases ps with
  | nil => exact hr
  | cons p ps =>
    cases hp : p.isComment with
    | true =>
      rcases keptText_of_comment h hp with e | ⟨t, e⟩ <;> rw [e]
      · exact .nil q
      · exact .cons hq t
    | false =>
      obtain ⟨c, w, e⟩ := h.1.exists_cons
      rw [keptText_cons hp, e]
      rw [List.flatMap_cons, e] at hr
      exact hr.congr rfl

theorem startsFraction_keptText (h : Stand ps [])
    (hf : Piece.startsFraction (keptText ps) = true) :
    Piece.startsFraction (ps.flatMap Piece.text) = true := by
  cases ps with
  | nil => exact hf
  | cons p ps =>
    cases hp : p.isComment with
    | true =>
      rcases keptText_of_comment h hp with e | ⟨t, e⟩ <;> rw [e] at hf <;> cases hf
    | false =>
      obtain ⟨c, w, e⟩ := h.1.exists_cons
      rw [keptText_cons hp, e] at hf
      rw [List.flatMap_cons, e]
      exact Piece.startsFraction_cons_append (fun hr => hr.keptText rfl h.2.2) hf

theorem keptText_eq_nil (h : ps.flatMap Piece.text = []) : keptText ps = [] :=
  List.flatMap_eq_nil_iff.mpr fun p hp =>
    List.flatMap_eq_nil_iff.mp h p (List.mem_of_mem_filter hp)

theorem Stand.kept (h : Stand ps []) : Stand (kept ps) [] := by
  have hbreak : ∀ q ∈ Piece.runs, q '\n' = false := by decide
  induction ps with
  | nil => trivial
  | cons p ps ih =>
    obtain ⟨hw, hs, hps⟩ := h
    cases hp : p.isComment with
    | true =>
      rw [kept_cons_comment hp]
      exact ih hps
    | false =>
      rw [kept_cons hp]
      refine ⟨hw, ?_, ih hps⟩
      rw [List.append_nil] at hs ⊢
      refine hs.of_runs (fun q hq hr => hr.keptText (hbreak q hq) hps)
        (startsFraction_keptText hps) ?_ ?_
      · rintro body rfl
        cases hp
      · rintro body rfl
        exact keptText_eq_nil hs

/-! ## Offsets -/

theorem Placed.covers_iff {x : Placed} {i : Nat} :
    x.covers i = true ↔ x.offset ≤ i ∧ i < x.offset + x.piece.text.length := by
  rw [covers, Bool.and_eq_true, decide_eq_true_eq, decide_eq_true_eq]

/-- The character at offset `i` is in a comment among the pieces. -/
def inComment (xs : List Placed) (i : Nat) : Bool := xs.any fun x => x.piece.isComment && x.covers i

theorem inComment_placeAfter_cons (before : Text) (p : Piece) (ps : List Piece) (i : Nat) :
    inComment (placeAfter before (p :: ps)) i =
      (p.isComment && Placed.covers ⟨before.length, 1 + Text.newlines before, p⟩ i ||
        inComment (placeAfter (before ++ p.text) ps) i) := by
  rw [placeAfter_cons, inComment, List.any_cons, inComment]

theorem inComment_of_lt {before : Text} {i : Nat} (h : i < before.length) :
    inComment (placeAfter before ps) i = false := by
  refine List.any_eq_false.mpr fun x hx => ?_
  obtain ⟨hbefore, -⟩ := bounds_of_mem_placeAfter hx
  simp only [Bool.and_eq_true, Placed.covers_iff, not_and]
  omega

/-- The characters that are in no comment are those of the other pieces. -/
theorem map_fst_filter_zipIdx (before : Text) (ps : List Piece) :
    (((ps.flatMap Piece.text).zipIdx before.length).filter fun (_, i) =>
      !inComment (placeAfter before ps) i).map Prod.fst = keptText ps := by
  induction ps generalizing before with
  | nil => rfl
  | cons p ps ih =>
    have hfirst : ∀ e ∈ p.text.zipIdx before.length,
        (!inComment (placeAfter before (p :: ps)) e.2) = !p.isComment := by
      rintro ⟨c, i⟩ he
      obtain ⟨hle, hlt, -⟩ := List.mem_zipIdx he
      have hcovers : Placed.covers ⟨before.length, 1 + Text.newlines before, p⟩ i = true :=
        Placed.covers_iff.mpr ⟨hle, hlt⟩
      rw [inComment_placeAfter_cons, hcovers, inComment_of_lt (by simpa using hlt), Bool.and_true,
        Bool.or_false]
    have hrest : ∀ e ∈ (ps.flatMap Piece.text).zipIdx (before ++ p.text).length,
        (!inComment (placeAfter before (p :: ps)) e.2) =
          !inComment (placeAfter (before ++ p.text) ps) e.2 := by
      rintro ⟨c, i⟩ he
      obtain ⟨hle, -, -⟩ := List.mem_zipIdx he
      rw [List.length_append] at hle
      have hcovers : Placed.covers ⟨before.length, 1 + Text.newlines before, p⟩ i = false :=
        Bool.eq_false_iff.mpr fun h => by
          have := (Placed.covers_iff.mp h).2
          dsimp only at this
          omega
      rw [inComment_placeAfter_cons, hcovers, Bool.and_false, Bool.false_or]
    rw [List.flatMap_cons, List.zipIdx_append, List.filter_append, List.map_append,
      ← List.length_append, List.filter_congr hfirst, List.filter_congr hrest, ih]
    cases hp : p.isComment with
    | true =>
      rw [keptText_cons_comment hp, Bool.not_true, List.filter_false]
      rfl
    | false =>
      rw [keptText_cons hp, Bool.not_false, List.filter_true, List.zipIdx_map_fst]

theorem uncommented_eq (source : Text) : uncommented source = keptText (pieces source) := by
  have h := map_fst_filter_zipIdx [] (pieces source)
  simp only [pieces_text, inComment, List.length_nil] at h
  simp only [uncommented, comments, List.any_filter]
  exact h

theorem pieces_uncommented (source : Text) :
    pieces (uncommented source) = kept (pieces source) := by
  rw [uncommented_eq, pieces_eq_iff]
  exact ⟨rfl, (stand_pieces source).kept⟩

theorem length_comments_add_length_keptText (ps : List Piece) :
    ((ps.filter Piece.isComment).flatMap Piece.text).length + (keptText ps).length =
      (ps.flatMap Piece.text).length := by
  induction ps with
  | nil => rfl
  | cons p ps ih =>
    rw [List.flatMap_cons, List.length_append]
    cases hp : p.isComment with
    | true =>
      rw [List.filter_cons_of_pos hp, keptText_cons_comment hp, List.flatMap_cons,
        List.length_append]
      omega
    | false =>
      rw [List.filter_cons_of_neg (by simp [hp]), keptText_cons hp, List.length_append]
      omega

/-- The offset of a piece in the source without comments is that in the source less the length of
the comments before it. -/
theorem commentedBefore_add (h : pieces source = done ++ ps) :
    commentedBefore source (done.flatMap Piece.text).length + (keptText done).length =
      (done.flatMap Piece.text).length := by
  have hdone : (((placeAfter [] done).filter fun x => x.piece.isComment).filter fun x =>
      ((x.offset : Int) < (done.flatMap Piece.text).length : Bool)) =
      (placeAfter [] done).filter fun x => x.piece.isComment := by
    refine List.filter_eq_self.mpr fun x hx => ?_
    obtain ⟨hx, hcomment⟩ := List.mem_filter.mp hx
    obtain ⟨-, hle⟩ := bounds_of_mem_placeAfter hx
    obtain ⟨body, e⟩ := Piece.exists_body hcomment
    rw [e] at hle
    simp only [Piece.text, List.length_cons, List.nil_append] at hle
    exact decide_eq_true (by omega)
  have hps : (((placeAfter (done.flatMap Piece.text) ps).filter fun x =>
      x.piece.isComment).filter fun x =>
      ((x.offset : Int) < (done.flatMap Piece.text).length : Bool)) = [] := by
    refine List.filter_eq_nil_iff.mpr fun x hx => ?_
    obtain ⟨hle, -⟩ := bounds_of_mem_placeAfter (List.mem_of_mem_filter hx)
    rw [decide_eq_true_eq]
    omega
  have htext : ((placeAfter [] done).filter fun x => x.piece.isComment).flatMap
      (fun x => x.piece.text) = (done.filter Piece.isComment).flatMap Piece.text := by
    have := congrArg (fun qs => (List.filter Piece.isComment qs).flatMap Piece.text)
      (map_piece_place 0 1 done)
    simp only [List.filter_map, List.flatMap_map] at this
    exact this
  rw [commentedBefore, comments, h, placeAfter_append, List.filter_append, List.filter_append,
    List.nil_append, hdone, hps, List.append_nil, htext, length_comments_add_length_keptText]

theorem newlines_keptText (h : ∀ p ∈ ps, p.WellFormed) :
    Text.newlines (keptText ps) = Text.newlines (ps.flatMap Piece.text) := by
  induction ps with
  | nil => rfl
  | cons p ps ih =>
    have hps := ih fun q hq => h q (List.mem_cons_of_mem p hq)
    rw [List.flatMap_cons, Text.newlines_append]
    cases hp : p.isComment with
    | true =>
      obtain ⟨body, rfl⟩ := Piece.exists_body hp
      have hbody : '\n' ∉ body := h _ List.mem_cons_self
      have hnone : Text.newlines (Piece.comment body).text = 0 :=
        List.count_eq_zero_of_not_mem (by simpa [Piece.text] using hbody)
      rw [keptText_cons_comment hp, hps, hnone, Nat.zero_add]
    | false => rw [keptText_cons hp, Text.newlines_append, hps]

/-! ## Outcomes -/

/-- What is made of the pieces that are kept, one by one. -/
theorem filterMap_kept {α : Type} {f g : Placed → Option α}
    (hsilent : ∀ x : Placed, x.piece.token? = none → x.piece.fault? = none → g x = none)
    (hpiece : ∀ done p ps, pieces source = done ++ p :: ps →
      f ⟨(keptText done).length, 1 + Text.newlines (keptText done), p⟩ =
        g ⟨(done.flatMap Piece.text).length, 1 + Text.newlines (done.flatMap Piece.text), p⟩)
    (done : List Piece) (h : pieces source = done ++ ps) :
    (placeAfter (keptText done) (kept ps)).filterMap f =
      (placeAfter (done.flatMap Piece.text) ps).filterMap g := by
  induction ps generalizing done with
  | nil => rfl
  | cons p ps ih =>
    have hps := ih (done ++ [p]) (by rw [h, List.append_assoc]; rfl)
    rw [List.flatMap_append, List.flatMap_singleton] at hps
    rw [filterMap_placeAfter_cons, ← hps]
    cases hp : p.isComment with
    | true =>
      have hdone : keptText (done ++ [p]) = keptText done := by
        rw [keptText_append, keptText_cons_comment hp]
        exact List.append_nil _
      obtain ⟨body, rfl⟩ := Piece.exists_body hp
      rw [kept_cons_comment hp, hsilent ⟨_, _, .comment body⟩ rfl rfl, hdone]
      rfl
    | false =>
      have hdone : keptText (done ++ [p]) = keptText done ++ p.text := by
        rw [keptText_append, keptText_cons hp]
        exact congrArg _ (List.append_nil _)
      rw [kept_cons hp, filterMap_placeAfter_cons, hpiece done p ps h, hdone]

theorem placeAfter_uncommented {α : Type} {f g : Placed → Option α}
    (hsilent : ∀ x : Placed, x.piece.token? = none → x.piece.fault? = none → g x = none)
    (hpiece : ∀ done p ps, pieces source = done ++ p :: ps →
      f ⟨(keptText done).length, 1 + Text.newlines (keptText done), p⟩ =
        g ⟨(done.flatMap Piece.text).length, 1 + Text.newlines (done.flatMap Piece.text), p⟩) :
    (placeAfter [] (pieces (uncommented source))).filterMap f =
      (placeAfter [] (pieces source)).filterMap g := by
  rw [pieces_uncommented]
  exact filterMap_kept hsilent hpiece [] rfl

theorem wellFormed_of_pieces_eq (h : pieces source = done ++ ps) : ∀ p ∈ done, p.WellFormed :=
  fun p hp => (stand_pieces source).wellFormed p (by rw [h]; exact List.mem_append_left ps hp)

theorem newlines_uncommented (source : Text) :
    Text.newlines (uncommented source) = Text.newlines source := by
  rw [uncommented_eq, newlines_keptText (stand_pieces source).wellFormed, pieces_text]

/-- The token less the characters of the comments before it. -/
def Token.uncommented (source : Text) (t : Token) : Token :=
  { t with offset := t.offset - commentedBefore source t.offset }

theorem endToken_uncommented (source : Text) (line : Nat) :
    endToken (uncommented source).length line =
      (endToken source.length line).uncommented source := by
  have hall : pieces source = pieces source ++ [] := (List.append_nil _).symm
  have hlength := commentedBefore_add hall
  rw [pieces_text, ← uncommented_eq] at hlength
  simp only [endToken, Token.uncommented, Token.mk.injEq, true_and]
  omega

theorem scan_uncommented_eq (source : Text) :
    scan (uncommented source) = {
      scan source with tokens := (scan source).tokens.map (Token.uncommented source) } := by
  have htokens : (placeAfter [] (pieces (uncommented source))).filterMap Placed.token? =
      (placeAfter [] (pieces source)).filterMap fun x =>
        x.token?.map (Token.uncommented source) := by
    refine placeAfter_uncommented (fun x ht _ => ?_) (fun done p ps h => ?_)
    · rw [Placed.token?_eq_none ht]
      rfl
    · have hoffset := commentedBefore_add h
      simp only [Placed.token?, Option.map_map, newlines_keptText (wellFormed_of_pieces_eq h)]
      refine congrArg (fun f => p.token?.map f) ?_
      funext kl
      obtain ⟨kind, literal⟩ := kl
      simp only [Function.comp_apply, Token.uncommented, Token.mk.injEq, true_and]
      omega
  have hdiagnostics : (placeAfter [] (pieces (uncommented source))).filterMap Placed.diagnostic? =
      (placeAfter [] (pieces source)).filterMap Placed.diagnostic? := by
    refine placeAfter_uncommented (fun x _ hf => Placed.diagnostic?_eq_none hf)
      (fun done p ps h => ?_)
    simp only [Placed.diagnostic?, Placed.endLine, newlines_keptText (wellFormed_of_pieces_eq h)]
  rw [scan_eq, scan_eq, htokens, hdiagnostics, newlines_uncommented, endToken_uncommented,
    List.map_append, List.map_filterMap, List.map_singleton]

theorem comments_uncommented (source : Text) : comments (uncommented source) = [] := by
  refine List.filter_eq_nil_iff.mpr fun x hx hcomment => ?_
  rw [pieces_uncommented] at hx
  obtain ⟨qs, rs, hps, -, -⟩ := mem_placeAfter hx
  have hmem : x.piece ∈ kept (pieces source) := by simp [hps]
  have := (List.mem_filter.mp hmem).2
  rw [hcomment] at this
  cases this

theorem uncommented_of_comments_eq_nil (h : comments source = []) : uncommented source = source := by
  rw [uncommented, h]
  simp only [List.any_nil, Bool.not_false, List.filter_true, List.zipIdx_map_fst]

/-- A comment is two slashes and what follows them on their line. -/
theorem mem_comments {x : Placed} (h : x ∈ comments source) :
    ∃ before body after, source = before ++ '/' :: '/' :: body ++ after ∧
      x.offset = before.length ∧ x.piece.text = '/' :: '/' :: body ∧ '\n' ∉ body ∧
      (after = [] ∨ after.head? = some '\n') := by
  obtain ⟨hx, hcomment⟩ := List.mem_filter.mp h
  obtain ⟨body, e⟩ := Piece.exists_body hcomment
  obtain ⟨qs, rs, hps, ho, -⟩ := mem_placeAfter hx
  have hstand := stand_pieces source
  rw [hps, e, Stand.append_iff] at hstand
  refine ⟨qs.flatMap Piece.text, body, rs.flatMap Piece.text, ?_, ho, by rw [e]; rfl,
    hstand.2.1, ?_⟩
  · rw [← pieces_text source, hps, e]
    simp [Piece.text]
  · rcases hstand.2.after_comment with rfl | ⟨rest, rfl⟩
    · exact .inl rfl
    · exact .inr rfl

/-- Comments lie beside the other pieces, strings with slashes in them as well as any other, and
these are kept. -/
theorem kept_of_not_comment {x : Placed} (hx : x ∈ placeAfter [] (pieces source))
    (hp : x.piece.isComment = false) :
    (∀ y ∈ comments source, y.offset + y.piece.text.length ≤ x.offset ∨
      x.offset + x.piece.text.length ≤ y.offset) ∧
      ((uncommented source).drop (x.offset - commentedBefore source x.offset)).take
        x.piece.text.length = x.piece.text := by
  obtain ⟨qs, rs, hps, ho, -⟩ := mem_placeAfter hx
  rw [List.nil_append] at ho
  constructor
  · intro y hy
    obtain ⟨hy, hcomment⟩ := List.mem_filter.mp hy
    rw [hps, placeAfter_append, List.nil_append] at hy
    rcases List.mem_append.mp hy with hy | hy
    · left
      have := (bounds_of_mem_placeAfter hy).2
      rwa [ho]
    · right
      rw [placeAfter_cons] at hy
      rcases List.mem_cons.mp hy with rfl | hy
      · rw [hp] at hcomment
        cases hcomment
      · have := (bounds_of_mem_placeAfter hy).1
        rwa [ho, ← List.length_append]
  · have hoffset := commentedBefore_add hps
    have htext : uncommented source = keptText qs ++ (x.piece.text ++ keptText rs) := by
      rw [uncommented_eq, hps, keptText_append, keptText_cons hp]
    have hlength : x.offset - commentedBefore source x.offset = (keptText qs).length := by
      rw [ho]
      omega
    rw [hlength, htext, List.drop_left, List.take_left]

/-- Without its comments a source scans to the same tokens and diagnostics on the same lines, the
tokens as much nearer to the beginning as there was comment before them. -/
theorem scan_uncommented (source : Text) :
    (∀ x ∈ comments source, ∃ before body after,
      source = before ++ '/' :: '/' :: body ++ after ∧ x.offset = before.length ∧
        x.piece.text = '/' :: '/' :: body ∧ '\n' ∉ body ∧
        (after = [] ∨ after.head? = some '\n')) ∧
      scan (uncommented source) = {
        tokens := (scan source).tokens.map fun t =>
          { t with offset := t.offset - commentedBefore source t.offset }
        diagnostics := (scan source).diagnostics
        line := (scan source).line } ∧
      comments (uncommented source) = [] ∧
      uncommented (uncommented source) = uncommented source ∧
      ∀ x ∈ placeAfter [] (pieces source), (∀ body, x.piece ≠ .comment body) →
        (∀ y ∈ comments source, y.offset + y.piece.text.length ≤ x.offset ∨
          x.offset + x.piece.text.length ≤ y.offset) ∧
        ((uncommented source).drop (x.offset - commentedBefore source x.offset)).take
          x.piece.text.length = x.piece.text := by
  refine ⟨fun x hx => mem_comments hx, scan_uncommented_eq source, comments_uncommented source,
    uncommented_of_comments_eq_nil (comments_uncommented source), fun x hx hp => ?_⟩
  refine kept_of_not_comment hx (Bool.eq_false_iff.mpr fun hcomment => ?_)
  obtain ⟨body, e⟩ := Piece.exists_body hcomment
  exact hp body e

/-- A comment with a quote between a point and a digit, and a string with slashes. -/
theorem scan_uncommented_quote :
    let source : Text := ['1', '.', '/', '/', '"', '5', '\n', '"', '/', '/', '"']
    uncommented source = ['1', '.', '\n', '"', '/', '/', '"'] ∧
      scan (uncommented source) = {
        tokens := [⟨.number, ['1'], .number (Double.nearest 1 1), 1, 0⟩,
          ⟨.symbol .dot, ['.'], .none, 1, 1⟩,
          ⟨.string, ['"', '/', '/', '"'], .text ['/', '/'], 2, 3⟩, endToken 7 2]
        diagnostics := []
        line := 2 } ∧
      comments (uncommented source) = [] := by
  intro source
  obtain ⟨-, hscan, hcomments, -⟩ := scan_uncommented source
  refine ⟨by decide +kernel, ?_, hcomments⟩
  rw [hscan]
  decide +kernel

end LoxLex
