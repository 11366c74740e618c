import LoxLex.Proofs.Scan.Placed

/-!
# Rewritten sources

What it takes to compare the scan of a source with that of a text it is rewritten to. A piece stops
at the rewritten text if that goes on with no more than the text did (`Piece.StopsAt.of_runs`), and
pieces that change neither their length nor their line breaks stay where they are (`place_map`).
`Token.mapText` rewrites the texts that a token holds.
-/

namespace LoxLex

theorem endsRun_iff {q : Char → Bool} {t : Text} : EndsRun q t ↔ t.head?.any q = false := by
  cases t <;> simp [EndsRun]

namespace Piece

/-- The classes of characters that go on with a piece, strings and comments apart. -/
def runs : List (Char → Bool) := [(· = '/'), (· = '='), Char.isDigit, isWordCharacter]

theorem StopsAt.of_runs {p : Piece} {rest rest' : Text} (h : p.StopsAt rest)
    (hruns : ∀ q ∈ runs, EndsRun q rest → EndsRun q rest')
    (hfraction : startsFraction rest' = true → startsFraction rest = true)
    (hcomment : ∀ body, p = comment body → EndsRun (· ≠ '\n') rest')
    (hunclosed : ∀ body, p = unclosed body → rest' = []) : p.StopsAt rest' := by
  cases p with
  | symbol s =>
    refine ⟨fun hs => hruns _ ?_ (h.1 hs), fun hs => hruns _ ?_ (h.2 hs)⟩
    all_goals simp [runs]
  | comment body => exact hcomment body rfl
  | unclosed body => exact hunclosed body rfl
  | numeral n =>
    refine ⟨hruns _ (by simp [runs]) h.1, fun hn => Bool.eq_false_iff.mpr fun hf => ?_⟩
    have := hfraction hf
    rw [h.2 hn] at this
    cases this
  | word w => exact hruns _ (by simp [runs]) h
  | blank _ | quoted _ | foreign _ => trivial

/-- What is put behind the first characters of a text brings no fraction about if it begins with a
digit no more than what was there. -/
theorem startsFraction_cons_append {c : Char} {w rest rest' : Text}
    (h : EndsRun Char.isDigit rest → EndsRun Char.isDigit rest')
    (hf : startsFraction (c :: (w ++ rest')) = true) : startsFraction (c :: (w ++ rest)) = true := by
  rw [startsFraction_cons, Bool.and_eq_true] at hf ⊢
  refine ⟨hf.1, ?_⟩
  cases w with
  | cons d w => exact hf.2
  | nil =>
    by_contra hne
    have hdigit := hf.2
    rw [List.nil_append, endsRun_iff.mp (h (endsRun_iff.mpr (Bool.eq_false_iff.mpr hne)))] at hdigit
    cases hdigit

end Piece

theorem place_map {g : Piece → Piece} {offset line : Nat} {ps : List Piece}
    (hlength : ∀ p ∈ ps, (g p).text.length = p.text.length)
    (hnewlines : ∀ p ∈ ps, Text.newlines (g p).text = Text.newlines p.text) :
    place offset line (ps.map g) =
      (place offset line ps).map fun x => { x with piece := g x.piece } := by
  induction ps generalizing offset line with
  | nil => rfl
  | cons p ps ih =>
    have hmem (q : Piece) (hq : q ∈ ps) : q ∈ p :: ps := List.mem_cons_of_mem p hq
    rw [List.map_cons, place, place, List.map_cons, hlength p List.mem_cons_self,
      hnewlines p List.mem_cons_self,
      ih (fun q hq => hlength q (hmem q hq)) (fun q hq => hnewlines q (hmem q hq))]

def Literal.mapText (g : Text → Text) : Literal → Literal
  | .text body => .text (g body)
  | v => v

/-- The token with `g` applied to its lexeme and to the text that is its value. -/
def Token.mapText (g : Text → Text) (t : Token) : Token :=
  { t with lexeme := g t.lexeme, literal := t.literal.mapText g }

end LoxLex
