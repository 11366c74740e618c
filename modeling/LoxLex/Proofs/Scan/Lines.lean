import LoxLex.Proofs.Scan.Placed

/-!
# Line numbers

`Scan.CountsLines r source`: all lines of the outcome `r` are counts of the newlines of `source`.
`scan_countsLines` proves it of every scan.
-/

namespace LoxLex

/-- The characters of a source that start nothing, each with the text before it. -/
def unexpected (source : Text) : List (Text × Char) :=
  (placeAfter [] (pieces source)).filterMap fun x =>
    match x.piece with
    | .foreign c => some (source.take x.offset, c)
    | _ => none

structure Scan.CountsLines (r : Scan) (source : Text) : Prop where
  /-- A token is on the line of its first character, also if it goes on for several lines. -/
  token : ∀ t ∈ r.tokens, ∃ before after, source = before ++ t.lexeme ++ after ∧
    t.offset = before.length ∧ t.line = 1 + Text.newlines before
  unexpected_at : ∀ u ∈ unexpected source, ∃ after, source = u.1 ++ u.2 :: after
  unexpected : withCode "L001".toList r.diagnostics = (unexpected source).map fun (before, c) =>
    ⟨1 + Text.newlines before, "Unexpected character: '".toList ++ c :: "'.".toList,
      some "L001".toList⟩
  unterminated : ∀ d ∈ withCode "L002".toList r.diagnostics, d.line = r.line
  final : r.line = 1 + Text.newlines source
  tokens_sorted : (r.tokens.map Token.line).Pairwise (· ≤ ·)
  diagnostics_sorted : (r.diagnostics.map Diagnostic.line).Pairwise (· ≤ ·)

variable {source : Text} {x : Placed}

theorem mem_placeAfter_pieces (h : x ∈ placeAfter [] (pieces source)) :
    ∃ before after, source = before ++ x.piece.text ++ after ∧ x.offset = before.length ∧
      x.line = 1 + Text.newlines before := by
  obtain ⟨before, after, hps, ho, hl⟩ := mem_placeAfter h
  refine ⟨before.flatMap Piece.text, after.flatMap Piece.text, ?_, ho, hl⟩
  rw [← pieces_text source, hps]
  simp only [List.flatMap_append, List.flatMap_cons, List.append_assoc]

theorem take_offset {before after : Text} (hs : source = before ++ x.piece.text ++ after)
    (ho : x.offset = before.length) : source.take x.offset = before := by
  rw [hs, ho, List.append_assoc, List.take_left]

/-- An open string is the last piece of its source. -/
theorem endLine_of_unclosed {body : Text} (h : x ∈ placeAfter [] (pieces source))
    (hx : x.piece = .unclosed body) : x.endLine = 1 + Text.newlines source := by
  obtain ⟨before, after, hps, -, hl⟩ := mem_placeAfter h
  have hstand := stand_pieces source
  rw [hps, hx, Stand.append_iff] at hstand
  have hafter : after.flatMap Piece.text = [] := by simpa [Piece.StopsAt] using hstand.2.2.1
  rw [← pieces_text source, hps]
  simp only [Placed.endLine, hl, List.flatMap_append, List.flatMap_cons, hafter,
    Text.newlines_append, Text.newlines_nil]
  omega

theorem mem_tokens_scan {t : Token} (h : t ∈ (scan source).tokens) :
    ∃ before after, source = before ++ t.lexeme ++ after ∧ t.offset = before.length ∧
      t.line = 1 + Text.newlines before := by
  rw [scan_eq] at h
  rcases List.mem_append.mp h with h | h
  · obtain ⟨x, hx, ht⟩ := List.mem_filterMap.mp h
    obtain ⟨hlex, ho, hl⟩ := Placed.of_token? ht
    obtain ⟨before, after, hs, hxo, hxl⟩ := mem_placeAfter_pieces hx
    exact ⟨before, after, hlex ▸ hs, by omega, by omega⟩
  · cases List.mem_singleton.mp h
    exact ⟨source, [], by simp [endToken], rfl, rfl⟩

theorem mem_unexpected {u : Text × Char} (h : u ∈ unexpected source) :
    ∃ after, source = u.1 ++ u.2 :: after := by
  obtain ⟨x, hx, hu⟩ := List.mem_filterMap.mp h
  obtain ⟨before, after, hs, ho, -⟩ := mem_placeAfter_pieces hx
  have hbefore := take_offset hs ho
  cases hp : x.piece with
  | foreign c =>
    simp only [hp, hbefore] at hu
    cases hu
    exact ⟨after, by simpa [hp, Piece.text] using hs⟩
  | _ => simp [hp] at hu

theorem unexpected_diagnostics_scan (source : Text) :
    withCode "L001".toList (scan source).diagnostics = (unexpected source).map fun (before, c) =>
      ⟨1 + Text.newlines before, "Unexpected character: '".toList ++ c :: "'.".toList,
        some "L001".toList⟩ := by
  rw [withCode, scan_eq, unexpected, List.filter_filterMap, List.map_filterMap]
  refine List.filterMap_congr fun x hx => ?_
  obtain ⟨before, after, hs, ho, hl⟩ := mem_placeAfter_pieces hx
  have hbefore := take_offset hs ho
  cases hp : x.piece with
  | foreign c =>
    have hw := wellFormed_of_mem_placeAfter hx
    rw [hp] at hw
    have hend : x.endLine = 1 + Text.newlines before := by
      rw [Placed.endLine, hp, hl, Piece.text, newlines_foreign hw, Nat.add_zero]
    simp only [Placed.diagnostic?, hp, Piece.fault?, Option.map_some, hbefore, hend]
    rfl
  | unclosed body =>
    simp only [Placed.diagnostic?, hp, Piece.fault?]
    rfl
  | symbol _ | comment _ | blank _ | quoted _ | numeral _ | word _ =>
    simp only [Placed.diagnostic?, hp, Piece.fault?]; rfl

theorem line_of_unterminated {d : Diagnostic}
    (h : d ∈ withCode "L002".toList (scan source).diagnostics) :
    d.line = 1 + Text.newlines source := by
  obtain ⟨hd, hc⟩ := List.mem_filter.mp h
  obtain ⟨x, hx, hxd⟩ := List.mem_filterMap.mp hd
  obtain ⟨c, -, rfl⟩ | ⟨body, hp, rfl⟩ := Placed.of_diagnostic? hxd
  · cases hc
  · show (x.endLine : Int) = 1 + Text.newlines source
    exact_mod_cast endLine_of_unclosed hx hp

theorem pairwise_diagnostics_line (source : Text) :
    ((scan source).diagnostics.map Diagnostic.line).Pairwise (· ≤ ·) := by
  rw [scan_eq, List.pairwise_map, List.pairwise_filterMap]
  refine pairwise_place.imp fun {x y} ⟨_, hxy⟩ d hd e he => ?_
  have : x.endLine ≤ y.endLine := Nat.le_trans hxy (Nat.le_add_right ..)
  rw [Placed.line_of_diagnostic? hd, Placed.line_of_diagnostic? he]
  omega

theorem pairwise_tokens_line (source : Text) :
    ((scan source).tokens.map Token.line).Pairwise (· ≤ ·) := by
  rw [scan_eq, List.pairwise_map, List.pairwise_append]
  refine ⟨?_, List.pairwise_singleton _ _, fun t ht u hu => ?_⟩
  · rw [List.pairwise_filterMap]
    refine pairwise_place.imp fun {x y} ⟨_, hxy⟩ t ht u hu => ?_
    have : x.line ≤ y.line := Nat.le_trans (Nat.le_add_right ..) hxy
    rw [(Placed.of_token? ht).2.2, (Placed.of_token? hu).2.2]
    omega
  · have hmem : t ∈ (scan source).tokens := by
      rw [scan_eq]
      exact List.mem_append_left _ ht
    obtain ⟨before, after, hs, -, hl⟩ := mem_tokens_scan hmem
    cases List.mem_singleton.mp hu
    show t.line ≤ ((1 + Text.newlines source : Nat) : Int)
    rw [hs, Text.newlines_append, Text.newlines_append]
    omega

theorem scan_countsLines (source : Text) :
    (scan source).CountsLines source ∧
      (Scanner.ofSource source).scanAll.1.line = (scan source).line := by
  refine ⟨⟨fun t ht => mem_tokens_scan ht, fun u hu => mem_unexpected hu,
    unexpected_diagnostics_scan source, fun d hd => ?_, ?_, pairwise_tokens_line source,
    pairwise_diagnostics_line source⟩, ?_⟩
  · rw [line_of_unterminated hd]
    rfl
  · rfl
  · rw [← result_scanAll_ofSource]
    rfl

end LoxLex
