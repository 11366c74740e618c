import LoxLex.Proofs.Scan.Lines
import LoxLex.Proofs.Scan.Rewriting
import LoxLex.Proofs.Scan.Unclosed

/-!
# Recovery from unexpected characters

An unexpected character counts for no more than a blank: `scan_mended` compares a source with
`mended source`, which has a space in the place of each of them. The pieces of the one are those of
the other but for the unexpected characters themselves (`pieces_mended`).
-/

namespace LoxLex

/-- Where the characters are that a scan reports as unexpected. -/
def unexpectedOffsets (source : Text) : List Nat := (unexpected source).map fun u => u.1.length

/-- The source with a space for every character that a scan reports as unexpected. -/
def mended (source : Text) : Text :=
  source.mapIdx fun i c => if i ∈ unexpectedOffsets source then ' ' else c

/-! ## Pieces -/

namespace Piece

/-- The piece, or a space if it is an unexpected character. -/
def mended : Piece → Piece
  | foreign _ => blank ' '
  | p => p

theorem foreign_or_mended_eq_self (p : Piece) : (∃ c, p = foreign c) ∨ p.mended = p := by
  cases p with
  | foreign c => exact .inl ⟨c, rfl⟩
  | _ => exact .inr rfl

theorem WellFormed.mended {p : Piece} (h : p.WellFormed) : p.mended.WellFormed := by
  cases p with
  | foreign c => exact rfl
  | _ => exact h

theorem length_text_mended (p : Piece) : p.mended.text.length = p.text.length := by
  cases p <;> rfl

theorem newlines_text_mended {p : Piece} (h : p.WellFormed) :
    Text.newlines p.mended.text = Text.newlines p.text := by
  cases p with
  | foreign c => exact (newlines_foreign h).symm
  | _ => rfl

end Piece

/-- What the pieces look like with spaces for the unexpected characters. -/
def mendedText (ps : List Piece) : Text := (ps.map Piece.mended).flatMap Piece.text

theorem mendedText_append (ps qs : List Piece) :
    mendedText (ps ++ qs) = mendedText ps ++ mendedText qs := by
  simp only [mendedText, List.map_append, List.flatMap_append]

theorem length_mendedText (ps : List Piece) :
    (mendedText ps).length = (ps.flatMap Piece.text).length := by
  induction ps with
  | nil => rfl
  | cons p ps ih =>
    simp only [mendedText, List.map_cons, List.flatMap_cons, List.length_append,
      p.length_text_mended] at ih ⊢
    rw [ih]

variable {ps : List Piece}

theorem head?_mendedText (h : ∀ p ∈ ps, p.WellFormed) :
    (mendedText ps).head? = (ps.flatMap Piece.text).head? ∨
      (mendedText ps).head? = some ' ' ∧
        ∃ c, (ps.flatMap Piece.text).head? = some c ∧ Lead.of c = .foreign := by
  cases ps with
  | nil => exact .inl rfl
  | cons p ps =>
    obtain ⟨c, w, e⟩ := (h p List.mem_cons_self).exists_cons
    obtain ⟨d, rfl⟩ | hp := p.foreign_or_mended_eq_self
    · exact .inr ⟨rfl, d, rfl, h _ List.mem_cons_self⟩
    · left
      simp only [mendedText, List.map_cons, List.flatMap_cons, hp, e, List.cons_append,
        List.head?_cons]

theorem EndsRun.mendedText {q : Char → Bool} (h : ∀ p ∈ ps, p.WellFormed) (hq : q ' ' = false)
    (hr : EndsRun q (ps.flatMap Piece.text)) : EndsRun q (mendedText ps) := by
  obtain hhead | ⟨hhead, -⟩ := head?_mendedText h
  · exact hr.congr hhead.symm
  · intro c hc
    rw [hhead] at hc
    cases hc
    exact hq

theorem startsFraction_of_mendedText (h : ∀ p ∈ ps, p.WellFormed)
    (hs : Piece.startsFraction (mendedText ps) = true) :
    Piece.startsFraction (ps.flatMap Piece.text) = true := by
  cases ps with
  | nil => exact hs
  | cons p ps =>
    obtain ⟨c, w, e⟩ := (h p List.mem_cons_self).exists_cons
    obtain ⟨d, rfl⟩ | hp := p.foreign_or_mended_eq_self
    · cases hs
    · have hcons : mendedText (p :: ps) = c :: (w ++ mendedText ps) := by
        simp only [mendedText, List.map_cons, List.flatMap_cons, hp, e, List.cons_append]
      rw [hcons] at hs
      rw [List.flatMap_cons, e]
      exact Piece.startsFraction_cons_append
        (fun hr => hr.mendedText (fun q hq => h q (List.mem_cons_of_mem p hq)) rfl) hs

/-- A piece that stops at other pieces also stops at what is put in their place. -/
theorem Piece.StopsAt.mendedText {p : Piece} (h : ∀ q ∈ ps, q.WellFormed)
    (hs : p.StopsAt (ps.flatMap Piece.text)) : p.StopsAt (mendedText ps) := by
  have hspace : ∀ q ∈ runs, q ' ' = false := by decide
  refine hs.of_runs (fun q hq hr => hr.mendedText h (hspace q hq))
    (startsFraction_of_mendedText h) ?_ ?_
  · rintro body rfl
    obtain hhead | ⟨-, c, hc, hforeign⟩ := head?_mendedText h
    · exact EndsRun.congr hs hhead.symm
    · -- what ends a comment is the end of its line
      have : c = '\n' := by simpa using hs c hc
      subst this
      cases hforeign
  · rintro body rfl
    have := length_mendedText ps
    rw [show ps.flatMap Piece.text = [] from hs] at this
    exact List.eq_nil_of_length_eq_zero this

theorem Stand.mended (h : Stand ps []) : Stand (ps.map Piece.mended) [] := by
  induction ps with
  | nil => trivial
  | cons p ps ih =>
    obtain ⟨hw, hs, hps⟩ := h
    refine ⟨hw.mended, ?_, ih hps⟩
    rw [List.append_nil] at hs ⊢
    cases p with
    | foreign c => trivial
    | _ => exact hs.mendedText hps.wellFormed

/-! ## Offsets -/

/-- The offsets of the unexpected characters among the pieces. -/
def foreignOffsets (xs : List Placed) : List Nat :=
  xs.filterMap fun x =>
    match x.piece with
    | .foreign _ => some x.offset
    | _ => none

theorem unexpectedOffsets_eq (source : Text) :
    unexpectedOffsets source = foreignOffsets (placeAfter [] (pieces source)) := by
  rw [unexpectedOffsets, unexpected, List.map_filterMap, foreignOffsets]
  refine List.filterMap_congr fun x hx => ?_
  obtain ⟨before, after, hs, ho, -⟩ := mem_placeAfter_pieces hx
  have hbefore := take_offset hs ho
  cases hp : x.piece with
  | foreign c => rw [Option.map_some, hbefore, ho]
  | _ => rfl

theorem foreignOffsets_append (xs ys : List Placed) :
    foreignOffsets (xs ++ ys) = foreignOffsets xs ++ foreignOffsets ys := List.filterMap_append

/-- The offsets of unexpected characters lie where their pieces lie. -/
theorem mem_foreignOffsets {before : Text} {i : Nat}
    (h : i ∈ foreignOffsets (placeAfter before ps)) :
    before.length ≤ i ∧ i < (before ++ ps.flatMap Piece.text).length := by
  obtain ⟨x, hx, hi⟩ := List.mem_filterMap.mp h
  obtain ⟨hle, hlt⟩ := bounds_of_mem_placeAfter hx
  cases hp : x.piece with
  | foreign c =>
    simp only [hp] at hi hlt
    cases hi
    exact ⟨hle, hlt⟩
  | _ => simp [hp] at hi

theorem mem_foreignOffsets_cons {before : Text} {p : Piece} {i : Nat} :
    i ∈ foreignOffsets (placeAfter before (p :: ps)) ↔
      (∃ c, p = .foreign c) ∧ i = before.length ∨
        i ∈ foreignOffsets (placeAfter (before ++ p.text) ps) := by
  rw [foreignOffsets, filterMap_placeAfter_cons, List.mem_append]
  cases p <;> simp [foreignOffsets]

theorem mapIdx_text_of_not_mem {before : Text} {offsets : List Nat} (t : Text)
    (h : ∀ i < t.length, before.length + i ∉ offsets) :
    t.mapIdx (fun i c => if before.length + i ∈ offsets then ' ' else c) = t := by
  refine List.ext_getElem (by simp) fun i hi _ => ?_
  rw [List.getElem_mapIdx, if_neg (h i (by simpa using hi))]

/-- A space at each of the offsets makes the mended text. -/
theorem mapIdx_foreignOffsets (before : Text) (ps : List Piece) :
    (ps.flatMap Piece.text).mapIdx (fun i c =>
      if before.length + i ∈ foreignOffsets (placeAfter before ps) then ' ' else c) =
      mendedText ps := by
  induction ps generalizing before with
  | nil => rfl
  | cons p ps ih =>
    have htail (i : Nat) (hi : i < p.text.length) :
        before.length + i ∉ foreignOffsets (placeAfter (before ++ p.text) ps) := fun hmem => by
      have := (mem_foreignOffsets hmem).1
      rw [List.length_append] at this
      omega
    have hfirst : p.text.mapIdx (fun i c =>
        if before.length + i ∈ foreignOffsets (placeAfter before (p :: ps)) then ' ' else c) =
        p.mended.text := by
      obtain ⟨c, rfl⟩ | hp := p.foreign_or_mended_eq_self
      · simp [Piece.text, Piece.mended, mem_foreignOffsets_cons]
      · rw [hp]
        refine mapIdx_text_of_not_mem p.text fun i hi hmem => ?_
        obtain ⟨⟨c, rfl⟩, -⟩ | hmem := mem_foreignOffsets_cons.mp hmem
        · cases hp
        · exact htail i hi hmem
    have hrest := ih (before ++ p.text)
    have hmem (i : Nat) : before.length + (i + p.text.length) ∈
        foreignOffsets (placeAfter before (p :: ps)) ↔
        (before ++ p.text).length + i ∈ foreignOffsets (placeAfter (before ++ p.text) ps) := by
      rw [mem_foreignOffsets_cons, List.length_append,
        show before.length + (i + p.text.length) = before.length + p.text.length + i by omega]
      refine or_iff_right ?_
      rintro ⟨⟨c, rfl⟩, h⟩
      simp only [Piece.text, List.length_cons, List.length_nil] at h
      omega
    rw [List.flatMap_cons, List.mapIdx_append, hfirst]
    simp only [hmem, hrest, mendedText, List.map_cons, List.flatMap_cons]

theorem mended_eq (source : Text) : mended source = mendedText (pieces source) := by
  have := mapIdx_foreignOffsets [] (pieces source)
  rw [pieces_text] at this
  simpa only [mended, unexpectedOffsets_eq, List.length_nil, Nat.zero_add] using this

theorem pieces_mended (source : Text) :
    pieces (mended source) = (pieces source).map Piece.mended := by
  rw [mended_eq, pieces_eq_iff]
  exact ⟨rfl, (stand_pieces source).mended⟩

/-! ## Outcomes -/

namespace Placed

def mended (x : Placed) : Placed := { x with piece := x.piece.mended }

theorem token?_mended (x : Placed) : x.mended.token? = x.token? := by
  obtain ⟨offset, line, p⟩ := x
  cases p <;> rfl

theorem diagnostic?_mended (x : Placed) :
    x.mended.diagnostic? = x.diagnostic?.filter fun d => d.code = some "L002".toList := by
  obtain ⟨offset, line, p⟩ := x
  cases p <;> rfl

end Placed

theorem newlines_mendedText (h : ∀ p ∈ ps, p.WellFormed) :
    Text.newlines (mendedText ps) = Text.newlines (ps.flatMap Piece.text) := by
  induction ps with
  | nil => rfl
  | cons p ps ih =>
    have := ih fun q hq => h q (List.mem_cons_of_mem p hq)
    rw [mendedText] at this ⊢
    rw [List.map_cons, List.flatMap_cons, List.flatMap_cons, Text.newlines_append,
      Text.newlines_append, Piece.newlines_text_mended (h p List.mem_cons_self), this]

theorem scan_mended_eq (source : Text) :
    scan (mended source) =
      { scan source with diagnostics := withCode "L002".toList (scan source).diagnostics } := by
  have hwf := (stand_pieces source).wellFormed
  have hplace : placeAfter [] (pieces (mended source)) =
      (placeAfter [] (pieces source)).map Placed.mended := by
    rw [pieces_mended]
    exact place_map (fun p _ => p.length_text_mended) fun p hp => p.newlines_text_mended (hwf p hp)
  have hlength : (mended source).length = source.length := List.length_mapIdx
  have hnewlines : Text.newlines (mended source) = Text.newlines source := by
    rw [mended_eq, newlines_mendedText hwf, pieces_text]
  simp only [scan_eq, hplace, hlength, hnewlines, withCode, List.filterMap_map,
    List.filter_filterMap, Function.comp_def, Placed.token?_mended, Placed.diagnostic?_mended]

/-! ## Open strings -/

theorem length_unterminated_le (source : Text) :
    (withCode "L002".toList (scan source).diagnostics).length ≤ 1 := by
  show (withCode _ ((placeAfter [] (pieces source)).filterMap Placed.diagnostic?)).length ≤ 1
  have hstand := stand_pieces source
  obtain hnil | ⟨qs, p, hps⟩ := (pieces source).eq_nil_or_concat'
  · rw [hnil]
    exact Nat.zero_le 1
  · rw [hps] at hstand ⊢
    rw [placeAfter_append, List.filterMap_append, withCode_append,
      withCode_unterminated_eq_nil hstand.not_mem_init, List.nil_append]
    exact Nat.le_trans (List.length_filter_le _ _) (List.length_filterMap_le _ _)

/-! ## What is kept -/

/-- A piece that is no unexpected character, a string or a comment as well as any other, has no
reported character in it and is not changed. -/
theorem mended_eq_of_not_foreign {source : Text} {x : Placed}
    (hx : x ∈ placeAfter [] (pieces source)) (hp : ∀ c, x.piece ≠ .foreign c) :
    (∀ i ∈ unexpectedOffsets source, i < x.offset ∨ x.offset + x.piece.text.length ≤ i) ∧
      ((mended source).drop x.offset).take x.piece.text.length = x.piece.text := by
  obtain ⟨qs, rs, hps, ho, -⟩ := mem_placeAfter hx
  rw [List.nil_append] at ho
  constructor
  · intro i hi
    rw [unexpectedOffsets_eq, hps, placeAfter_append, foreignOffsets_append] at hi
    obtain hi | hi := List.mem_append.mp hi
    · left
      rw [ho]
      exact (mem_foreignOffsets hi).2
    · right
      obtain ⟨⟨c, hc⟩, -⟩ | hi := mem_foreignOffsets_cons.mp hi
      · exact absurd hc (hp c)
      · rw [ho]
        simpa using (mem_foreignOffsets hi).1
  · have hself : x.piece.mended = x.piece :=
      x.piece.foreign_or_mended_eq_self.resolve_left fun ⟨c, hc⟩ => hp c hc
    have htext : mended source = mendedText qs ++ (x.piece.text ++ mendedText rs) := by
      rw [mended_eq, hps, mendedText_append, mendedText, mendedText, List.map_cons,
        List.flatMap_cons, hself, mendedText]
    rw [htext, ho, ← length_mendedText, List.drop_left, List.take_left]

/-- With a space in the place of every unexpected character a source has the same tokens on the
same lines and at the same offsets, and of the diagnostics only that of an open string is left. -/
theorem scan_mended (source : Text) :
    withCode "L001".toList (scan source).diagnostics = ((unexpected source).map fun (before, c) =>
        ⟨1 + Text.newlines before, "Unexpected character: '".toList ++ c :: "'.".toList,
          some "L001".toList⟩) ∧
      (scan (mended source)).tokens = (scan source).tokens ∧
      (scan (mended source)).line = (scan source).line ∧
      (scan (mended source)).diagnostics = withCode "L002".toList (scan source).diagnostics ∧
      (withCode "L002".toList (scan source).diagnostics).length ≤ 1 ∧
      ∀ x ∈ placeAfter [] (pieces source), (∀ c, x.piece ≠ .foreign c) →
        (∀ i ∈ unexpectedOffsets source, i < x.offset ∨ x.offset + x.piece.text.length ≤ i) ∧
        ((mended source).drop x.offset).take x.piece.text.length = x.piece.text := by
  refine ⟨unexpected_diagnostics_scan source, ?_, ?_, ?_, length_unterminated_le source,
    fun x hx hp => mended_eq_of_not_foreign hx hp⟩
  all_goals rw [scan_mended_eq]

/-- A sign between a number and a dot is replaced, the same sign in a comment is kept. -/
theorem scan_mended_sign :
    let source : Text := ['1', '@', '.', '5', '"', '@', '"', '/', '/', '@']
    let remark : Placed := ⟨7, 1, .comment ['@']⟩
    mended source = ['1', ' ', '.', '5', '"', '@', '"', '/', '/', '@'] ∧
      (scan (mended source)).tokens = (scan source).tokens ∧
      remark ∈ placeAfter [] (pieces source) ∧ (∀ c, remark.piece ≠ .foreign c) ∧
      (∀ i ∈ unexpectedOffsets source, i < 7 ∨ 10 ≤ i) ∧
      ((mended source).drop 7).take 3 = ['/', '/', '@'] := by
  intro source remark
  have hremark : remark ∈ placeAfter [] (pieces source) := by decide +kernel
  have hforeign : ∀ c, remark.piece ≠ .foreign c := nofun
  obtain ⟨-, htokens, -, -, -, hkept⟩ := scan_mended source
  obtain ⟨hoffsets, htext⟩ := hkept remark hremark hforeign
  exact ⟨by decide +kernel, htokens, hremark, hforeign, hoffsets, htext⟩

end LoxLex
