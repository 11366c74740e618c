import LoxLex.Proofs.Scan.Placed

/-!
# Open strings

Only the last piece of a source can be an open string (`Stand.not_mem_init`), and a scan has the
diagnostic of an unterminated string exactly if that piece is one (`unterminated_eq_nil_iff`,
`exists_unclosed`).
-/

namespace LoxLex

variable {ps : List Piece}

theorem Stand.not_mem_unclosed {rest : Text} (h : Stand ps rest) (hrest : rest ≠ [])
    (body : Text) : .unclosed body ∉ ps := by
  induction ps with
  | nil => exact List.not_mem_nil
  | cons p ps ih =>
    intro hmem
    obtain rfl | hmem := List.mem_cons.mp hmem
    · exact hrest (List.append_eq_nil_iff.mp h.2.1).2
    · exact ih h.2.2 hmem

theorem Stand.not_mem_init {p : Piece} (h : Stand (ps ++ [p]) []) (body : Text) :
    .unclosed body ∉ ps := by
  obtain ⟨hps, hp, -, -⟩ := append_iff.mp h
  obtain ⟨c, w, e⟩ := hp.exists_cons
  exact hps.not_mem_unclosed (by simp [e]) body

/-- Without an open string only characters are at fault. -/
theorem code_of_not_mem_unclosed (h : ∀ body, .unclosed body ∉ ps) :
    ∀ p ∈ ps, ∀ fault, p.fault? = some fault → fault.code = "L001".toList := by
  intro p hp fault hf
  obtain ⟨c, -, rfl⟩ | ⟨body, rfl, -⟩ := Piece.fault?_cases hf
  · rfl
  · exact absurd hp (h body)

theorem withCode_unterminated_eq_nil {before : Text} (h : ∀ body, .unclosed body ∉ ps) :
    withCode "L002".toList ((placeAfter before ps).filterMap Placed.diagnostic?) = [] :=
  withCode_eq_nil fun p hp fault hf => by
    rw [code_of_not_mem_unclosed h p hp fault hf]
    decide

theorem unterminated_eq_nil_iff {source : Text} :
    withCode "L002".toList (scan source).diagnostics = [] ↔
      ∀ body, .unclosed body ∉ pieces source := by
  constructor
  · intro h body hmem
    obtain ⟨x, hx, hp⟩ : ∃ x ∈ placeAfter [] (pieces source), x.piece = .unclosed body := by
      rwa [← List.mem_map, placeAfter, map_piece_place]
    have hd : x.diagnostic? = some (Fault.unterminatedString.diagnostic x.endLine) := by
      rw [Placed.diagnostic?, hp]
      rfl
    have hnone := List.filter_eq_nil_iff.mp h _ (List.mem_filterMap.mpr ⟨x, hx, hd⟩)
    exact hnone rfl
  · intro h
    rw [scan_eq]
    exact withCode_unterminated_eq_nil h

/-- The open string that a scan reports is the last piece. -/
theorem exists_unclosed {source : Text}
    (h : withCode "L002".toList (scan source).diagnostics ≠ []) :
    ∃ ps body, pieces source = ps ++ [.unclosed body] := by
  rw [Ne, unterminated_eq_nil_iff, not_forall] at h
  obtain ⟨body, hmem⟩ := h
  rw [not_not] at hmem
  have hstand := stand_pieces source
  obtain hnil | ⟨ps, p, hps⟩ := (pieces source).eq_nil_or_concat'
  · rw [hnil] at hmem
    cases hmem
  · rw [hps] at hstand hmem
    obtain hmem | hmem := List.mem_append.mp hmem
    · exact absurd hmem (hstand.not_mem_init body)
    · exact ⟨ps, body, by rw [hps, List.mem_singleton.mp hmem]⟩

end LoxLex
