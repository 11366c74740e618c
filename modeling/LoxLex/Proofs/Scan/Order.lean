import LoxLex.Proofs.Scan.Lines

/-!
# The order of tokens

The tokens of a scan come in the order of the source, each of them once (`pairwise_tokens_offset`),
and the end token comes last (`exists_tokens_eq_concat`).
-/

namespace LoxLex

variable {source : Text}

theorem length_pos_of_mem_placeAfter {x : Placed} (h : x ∈ placeAfter [] (pieces source)) :
    0 < x.piece.text.length := (wellFormed_of_mem_placeAfter h).length_pos

theorem pairwise_tokens_offset (source : Text) :
    ((scan source).tokens.map Token.offset).Pairwise (· < ·) := by
  rw [scan_eq, List.pairwise_map, List.pairwise_append]
  refine ⟨?_, List.pairwise_singleton _ _, fun t ht u hu => ?_⟩
  · rw [List.pairwise_filterMap]
    refine pairwise_place.imp_of_mem fun {x y} hx _ ⟨hxy, _⟩ t ht u hu => ?_
    have hpos := length_pos_of_mem_placeAfter hx
    rw [(Placed.of_token? ht).2.1, (Placed.of_token? hu).2.1]
    omega
  · -- the end token stands behind all pieces, and none of these is empty
    obtain ⟨x, hx, ht⟩ := List.mem_filterMap.mp ht
    obtain ⟨before, after, hsource, ho, -⟩ := mem_placeAfter_pieces hx
    have hpos := length_pos_of_mem_placeAfter hx
    have hlength := congrArg List.length hsource
    simp only [List.length_append] at hlength
    cases List.mem_singleton.mp hu
    show t.offset < (source.length : Int)
    rw [(Placed.of_token? ht).2.1]
    omega

theorem exists_tokens_eq_concat (source : Text) :
    ∃ ts, (scan source).tokens = ts ++ [endToken source.length (scan source).line] ∧
      ∀ t ∈ ts, t.kind ≠ .endOfInput := by
  rw [scan_eq]
  refine ⟨_, rfl, fun t ht => ?_⟩
  obtain ⟨x, -, hx⟩ := List.mem_filterMap.mp ht
  exact Placed.kind_of_token? hx

end LoxLex
