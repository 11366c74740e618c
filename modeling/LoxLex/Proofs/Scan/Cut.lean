import LoxLex.Proofs.Scan.Concatenation

/-!
# Cutting a source at a token

`scan_cut`: a source may be cut where one of its tokens begins. The part before it and the part
from it on scan to what the whole source scans to, each on its own, so nothing but the position and
the line is carried from one token to the next.
-/

namespace LoxLex

/-- A part of the placed pieces is a part of the pieces, placed. -/
theorem exists_of_placeAfter_eq_append {before : Text} {ps : List Piece} {xs ys : List Placed}
    (h : placeAfter before ps = xs ++ ys) :
    ∃ qs rs, ps = qs ++ rs ∧ placeAfter before qs = xs ∧
      placeAfter (before ++ qs.flatMap Piece.text) rs = ys := by
  have hps : ps = xs.map Placed.piece ++ ys.map Placed.piece := by
    rw [← List.map_append, ← h, placeAfter, map_piece_place]
  refine ⟨_, _, hps, ?_⟩
  rw [hps, placeAfter_append] at h
  refine List.append_inj h ?_
  have := congrArg List.length (map_piece_place before.length (1 + Text.newlines before)
    (xs.map Placed.piece))
  rwa [List.length_map, List.length_map] at this

/-- The end token is the last one. -/
theorem placed_tokens_of_tokens {source : Text} {before after : List Token} {t : Token}
    (h : (scan source).tokens = before ++ t :: after) (ht : t.kind ≠ .endOfInput) :
    ∃ ts, (placeAfter [] (pieces source)).filterMap Placed.token? = before ++ t :: ts := by
  rw [scan_eq] at h
  obtain ⟨ts, -, hend⟩ | ⟨ts, hts, hend⟩ := List.append_eq_append_iff.mp h
  · cases ts with
    | nil =>
      obtain ⟨rfl, -⟩ := List.cons.inj hend
      exact absurd rfl ht
    | cons u us => simp at hend
  · cases ts with
    | nil =>
      obtain ⟨rfl, -⟩ := List.cons.inj hend
      exact absurd rfl ht
    | cons u us =>
      obtain ⟨rfl, -⟩ := List.cons.inj hend
      exact ⟨us, hts⟩

/-- A token that is not the last one belongs to a piece, and the tokens before it to the pieces
before that one. -/
theorem exists_piece_of_tokens {source : Text} {before after : List Token} {t : Token}
    (h : (scan source).tokens = before ++ t :: after) (ht : t.kind ≠ .endOfInput) :
    ∃ ps p qs, pieces source = ps ++ p :: qs ∧
      (placeAfter [] ps).filterMap Placed.token? = before ∧
      Placed.token? ⟨(ps.flatMap Piece.text).length,
        1 + Text.newlines (ps.flatMap Piece.text), p⟩ = some t := by
  obtain ⟨ts, hts⟩ := placed_tokens_of_tokens h ht
  obtain ⟨xs, ys, hplaced, hxs, hys⟩ := List.filterMap_eq_append_iff.mp hts
  obtain ⟨silent, x, zs, rfl, hsilent, hx, -⟩ := List.filterMap_eq_cons_iff.mp hys
  rw [← List.append_assoc] at hplaced
  obtain ⟨ps, rs, hps, hpsplaced, hrsplaced⟩ := exists_of_placeAfter_eq_append hplaced
  cases rs with
  | nil => cases hrsplaced
  | cons p qs =>
    rw [placeAfter, place] at hrsplaced
    obtain ⟨rfl, -⟩ := List.cons.inj hrsplaced
    refine ⟨ps, p, qs, hps, ?_, by simpa using hx⟩
    rw [hpsplaced, List.filterMap_append, hxs, List.filterMap_eq_nil_iff.mpr hsilent,
      List.append_nil]

theorem scan_cut {source : Text} {before after : List Token} {t : Token}
    (h : (scan source).tokens = before ++ t :: after) (ht : t.kind ≠ .endOfInput) :
    ∃ o : Nat, t.offset = o ∧
      (scan (source.take o)).tokens = before ++ [⟨.endOfInput, [], .none, t.line, t.offset⟩] ∧
      (scan (source.drop o)).tokens = (t :: after).map (Token.moved (-t.offset) (1 - t.line)) ∧
      (scan source).diagnostics = (scan (source.take o)).diagnostics ++
        (scan (source.drop o)).diagnostics.map (Diagnostic.moved (t.line - 1)) := by
  obtain ⟨ps, p, qs, hpieces, hbefore, htoken⟩ := exists_piece_of_tokens h ht
  obtain ⟨-, ho, hl⟩ := Placed.of_token? htoken
  dsimp only at ho hl
  obtain ⟨hps, hqs⟩ := pieces_of_pieces_append hpieces
  have hsource : source = ps.flatMap Piece.text ++ (p :: qs).flatMap Piece.text := by
    rw [← List.flatMap_append, ← hpieces, pieces_text]
  generalize ps.flatMap Piece.text = s at *
  generalize (p :: qs).flatMap Piece.text = rest at *
  have hwhole := scan_append (s := s) (t := rest) (by rw [← hsource, hpieces, hps, hqs])
  rw [← hsource] at hwhole
  have hcut : (scan s).tokens = before ++ [⟨.endOfInput, [], .none, t.line, t.offset⟩] := by
    rw [scan_eq, hps, hbefore, ho, hl]
    rfl
  have hrest : (scan rest).tokens.map (Token.moved s.length (Text.newlines s)) = t :: after := by
    rw [hwhole, hcut, List.dropLast_concat] at h
    exact List.append_cancel_left h
  refine ⟨s.length, ho, ?_⟩
  rw [hsource, List.take_left, List.drop_left, ← hsource]
  refine ⟨hcut, ?_, ?_⟩
  · have hback : Token.moved (-t.offset) (1 - t.line) ∘ Token.moved s.length (Text.newlines s) =
        id := by
      funext u
      rw [Function.comp_apply, ho, show 1 - t.line = -(Text.newlines s : Int) by omega,
        Token.moved_back, id_eq]
    rw [← hrest, List.map_map, hback, List.map_id]
  · rw [hwhole]
    have : t.line - 1 = Text.newlines s := by omega
    rw [this]

/-- A cut between a number and a dot, behind a line break inside a string, with a fault on either
side. -/
theorem scan_cut_before_dot :
    let source : Text := ['~', '"', '\n', '"', '1', '.', 'x', '"']
    let before : List Token := [⟨.string, ['"', '\n', '"'], .text ['\n'], 1, 1⟩,
      ⟨.number, ['1'], .number (Double.nearest 1 1), 2, 4⟩]
    let dot : Token := ⟨.symbol .dot, ['.'], .none, 2, 5⟩
    let after : List Token := [⟨.identifier, ['x'], .none, 2, 6⟩, ⟨.endOfInput, [], .none, 2, 8⟩]
    (scan source).tokens = before ++ dot :: after ∧ dot.kind ≠ .endOfInput ∧
      ∃ o : Nat, dot.offset = o ∧
        (scan (source.take o)).tokens = before ++ [⟨.endOfInput, [], .none, 2, 5⟩] ∧
        (scan (source.drop o)).tokens = (dot :: after).map (Token.moved (-5) (1 - 2)) ∧
        (scan source).diagnostics = (scan (source.take o)).diagnostics ++
          (scan (source.drop o)).diagnostics.map (Diagnostic.moved (2 - 1)) := by
  intro source before dot after
  have h : (scan source).tokens = before ++ dot :: after := by decide +kernel
  have ht : dot.kind ≠ .endOfInput := by decide
  exact ⟨h, ht, scan_cut h ht⟩

end LoxLex
