import LoxLex.Proofs.Scan.Placed

/-!
# Phases of a scanner

A scanner is `Unread` until it reads its source, and only its cursor can move so far. `scanAll`
makes it `Complete` (`Unread.complete_scanAll`) and finds nothing more from then on
(`Complete.scanAll_eq`).
-/

namespace LoxLex

namespace Scanner

structure Unread (x : Scanner) : Prop where
  current : x.current ≤ x.source.length
  start : x.start = 0
  startLine : x.startLine = 1
  line : x.line = 1
  tokens : x.tokens = []
  errors : x.errors = []
  finished : x.finished = false

structure Complete (x : Scanner) : Prop where
  finished : x.finished = true
  start : x.start ≤ x.source.length
  current : x.current = x.source.length
  /-- The end of the input is the last token and no other one. -/
  tokens : ∃ ts, x.tokens = ts ++ [endToken x.source.length x.line] ∧
    ∀ t ∈ ts, t.kind ≠ .endOfInput

variable {x : Scanner}

theorem unread_ofSource (source : Text) : (ofSource source).Unread :=
  ⟨Nat.zero_le _, rfl, rfl, rfl, rfl, rfl, rfl⟩

theorem Unread.valid (h : x.Unread) : x.Valid :=
  ⟨h.start ▸ Nat.zero_le _, h.current⟩

theorem Complete.valid (h : x.Complete) : x.Valid :=
  ⟨h.current ▸ h.start, Nat.le_of_eq h.current⟩

theorem Unread.moved (h : x.Unread) (hx : x.current < x.source.length) :
    { x with current := x.current + 1 }.Unread :=
  { h with current := hx }

theorem advance?_eq_none_iff : x.advance? = none ↔ x.source.length ≤ x.current := by
  simp [advance?]

theorem offset_le_of_mem_place {p : Placed} {offset line : Nat} {t : Text}
    (h : p ∈ place offset line (pieces t)) : p.offset ≤ offset + t.length := by
  obtain ⟨before, after, hps, ho, -⟩ := mem_place h
  have hlength := congrArg List.length (pieces_text t)
  rw [hps, List.flatMap_append, List.length_append] at hlength
  omega

theorem Unread.complete_scanAll (h : x.Unread) : x.scanAll.1.Complete := by
  simp only [scanAll, h.finished, h.tokens, Bool.false_eq_true, if_false, List.nil_append]
  refine ⟨rfl, ?_, rfl, _, rfl, fun t ht => ?_⟩
  · have hlength : x.current + x.remaining.length = x.source.length := by
      rw [remaining, List.length_drop]
      have := h.current
      omega
    cases hlast : (place x.current x.line (pieces x.remaining)).getLast? with
    | none => simp [h.start]
    | some p =>
      show p.offset ≤ x.source.length
      exact hlength ▸ offset_le_of_mem_place (List.mem_of_getLast? hlast)
  · obtain ⟨p, -, hp⟩ := List.mem_filterMap.mp ht
    exact Placed.kind_of_token? hp

theorem Complete.scanAll_eq (h : x.Complete) : x.scanAll = (x, []) := by
  rw [scanAll, if_pos h.finished]

end Scanner

end LoxLex
