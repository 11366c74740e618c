import LoxLex.Proofs.Scan.Concatenation
import LoxLex.Proofs.Scanner.Phases

/-!
# Reading from the cursor

A scanner that has not read its source reads it from the cursor on: it finds what a scan of the
remaining text finds, with the offsets of the whole source (`Unread.scanAll_eq`). The lines are
counted from the cursor. `ReadFrom` is what such a scanner comes to, and `Proper` what every scanner
is that is new or has been read by hand or in full.
-/

namespace LoxLex

/-- The outcome of a scan of what comes after the first `k` characters of a source, as an outcome
of that source. -/
def Scan.behind (k : Nat) (r : Scan) : Scan := { r with tokens := r.tokens.map (Token.moved k 0) }

theorem ofPlaced_place_behind (k length : Nat) (t : Text) (hlength : length = k + t.length) :
    Scan.ofPlaced (place k 1 (pieces t)) length (1 + Text.newlines t) = (scan t).behind k := by
  -- the lines start at 1 on both sides, so only the offsets move
  have hplaced : place k 1 (pieces t) = (place 0 1 (pieces t)).map (Placed.moved k 0) := by
    rw [← place_moved, Nat.zero_add, Nat.add_zero]
  have hend : endToken length (1 + Text.newlines t) =
      (endToken t.length (1 + Text.newlines t)).moved k (0 : Nat) := by
    simp only [endToken, Token.moved, Token.mk.injEq, true_and]
    omega
  simp only [scan, scanFrom, Scan.ofPlaced, Scan.behind, hplaced, hend, List.filterMap_map,
    Function.comp_def, Placed.token?_moved, Placed.diagnostic?_moved, Diagnostic.moved_zero,
    Option.map_id, List.map_append, List.map_filterMap, List.map_singleton, Nat.zero_add, id_eq,
    Int.natCast_zero]

namespace Scanner

/-- The scanner has read its source from `k` on. -/
structure ReadFrom (x : Scanner) (k : Nat) : Prop extends x.Complete where
  le : k ≤ x.source.length
  result : x.result = (scan (x.source.drop k)).behind k

/-- The scanner has not read its source, or has read it from somewhere on. -/
def Proper (x : Scanner) : Prop := x.Unread ∨ ∃ k, x.ReadFrom k

variable {x : Scanner} {k : Nat}

theorem Unread.scanAll_eq (h : x.Unread) :
    x.scanAll.1.result = (scan x.remaining).behind x.current ∧
      x.scanAll.2 = (scan x.remaining).diagnostics := by
  have hlength : x.source.length = x.current + x.remaining.length := by
    rw [remaining, List.length_drop]
    have := h.current
    omega
  have hfound := ofPlaced_place_behind x.current x.source.length x.remaining hlength
  simp only [scanAll, h.finished, h.line, h.tokens, h.errors, Bool.false_eq_true, if_false, result,
    List.nil_append, hfound, true_and]
  rfl

theorem Unread.readFrom_scanAll (h : x.Unread) : x.scanAll.1.ReadFrom x.current := by
  have hsource : x.scanAll.1.source = x.source := by
    rw [scanAll]
    split <;> rfl
  refine ⟨h.complete_scanAll, ?_, ?_⟩
  · rw [hsource]
    exact h.current
  · rw [hsource]
    exact h.scanAll_eq.1

theorem ReadFrom.scanAll_eq (h : x.ReadFrom k) : x.scanAll = (x, []) := h.toComplete.scanAll_eq

theorem proper_ofSource (source : Text) : (ofSource source).Proper := .inl (unread_ofSource source)

theorem Proper.unread_or_complete (h : x.Proper) : x.Unread ∨ x.Complete :=
  h.imp_right fun ⟨_, hk⟩ => hk.toComplete

end Scanner

end LoxLex
