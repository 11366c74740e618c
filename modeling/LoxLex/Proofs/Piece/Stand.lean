import LoxLex.Proofs.Piece.Stops

/-!
# Sequences of pieces

`Stand ps rest`: the pieces stand one after the other directly before `rest`, each well formed and
ending where the next one begins. `pieces_eq_iff` says that cutting a text finds its one such
sequence, and `pieces_append` that the cut may be taken up again after any of them.
-/

namespace LoxLex

namespace Piece

theorem WellFormed.exists_cons {p : Piece} (h : p.WellFormed) : ∃ c w, p.text = c :: w := by
  cases p with
  | symbol s => cases s <;> exact ⟨_, _, rfl⟩
  | numeral n =>
    obtain ⟨d, ds, e⟩ := List.exists_cons_of_ne_nil h.whole_ne_nil
    by_cases hf : n.fraction = [] <;> simp [text, Numeral.text, hf, e]
  | word w =>
    obtain ⟨c, tail, e, -⟩ := h
    exact ⟨c, tail, e⟩
  | comment _ | blank _ | quoted _ | unclosed _ | foreign _ => exact ⟨_, _, rfl⟩

theorem WellFormed.length_pos {p : Piece} (h : p.WellFormed) : 0 < p.text.length := by
  obtain ⟨c, w, e⟩ := h.exists_cons
  simp [e]

end Piece

open Piece (split)

def Stand : List Piece → Text → Prop
  | [], _ => True
  | p :: ps, rest => p.WellFormed ∧ p.StopsAt (ps.flatMap Piece.text ++ rest) ∧ Stand ps rest

namespace Stand

variable {p : Piece} {ps qs : List Piece} {rest : Text}

theorem wellFormed (h : Stand ps rest) : ∀ p ∈ ps, p.WellFormed := by
  induction ps with
  | nil => simp
  | cons q qs ih =>
    intro p hp
    obtain rfl | hp := List.mem_cons.mp hp
    · exact h.1
    · exact ih h.2.2 p hp

theorem append_iff :
    Stand (ps ++ qs) rest ↔ Stand ps (qs.flatMap Piece.text ++ rest) ∧ Stand qs rest := by
  induction ps with
  | nil => simp [Stand]
  | cons p ps ih => simp only [List.cons_append, Stand, ih, List.flatMap_append, List.append_assoc,
      and_assoc]

/-- What comes next matters to a sequence no more than to its last piece. -/
theorem congr {rest' : Text} (h : Stand ps rest) (hh : rest.head? = rest'.head?)
    (hf : Piece.startsFraction rest = Piece.startsFraction rest') : Stand ps rest' := by
  induction ps with
  | nil => trivial
  | cons p ps ih =>
    refine ⟨h.1, ?_, ih h.2.2⟩
    cases hps : ps.flatMap Piece.text with
    | nil => exact (hps ▸ h.2.1).congr hh hf
    | cons x more =>
      refine (hps ▸ h.2.1).congr rfl ?_
      rw [List.cons_append, List.cons_append, Piece.startsFraction_cons, Piece.startsFraction_cons,
        List.head?_append, List.head?_append, hh]

end Stand

theorem stand_pieces (t : Text) : Stand (pieces t) [] := by
  fun_induction pieces t with
  | case1 => trivial
  | case2 c rest first ih =>
    obtain ⟨hw, hs⟩ := Piece.split_stops c rest
    refine ⟨hw, ?_, ih⟩
    rw [pieces_text, List.append_nil]
    exact hs

/-- Pieces that stand before `rest` are the first ones of their text and `rest`. -/
theorem pieces_append {ps : List Piece} {rest : Text} (h : Stand ps rest) :
    pieces (ps.flatMap Piece.text ++ rest) = ps ++ pieces rest := by
  induction ps with
  | nil => rfl
  | cons p ps ih =>
    obtain ⟨hw, hs, hps⟩ := h
    obtain ⟨c, w, ht⟩ := hw.exists_cons
    rw [List.flatMap_cons, ht, List.append_assoc, List.cons_append, pieces,
      Piece.split_of_stops ht hw hs, ih hps, List.cons_append]

theorem pieces_eq_iff {t : Text} {ps : List Piece} :
    pieces t = ps ↔ ps.flatMap Piece.text = t ∧ Stand ps [] := by
  constructor
  · rintro rfl
    exact ⟨pieces_text t, stand_pieces t⟩
  · rintro ⟨rfl, h⟩
    simpa [pieces] using pieces_append h

end LoxLex
