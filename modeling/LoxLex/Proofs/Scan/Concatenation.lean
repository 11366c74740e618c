import LoxLex.Proofs.Scan.Placed

/-!
# Scans of a text in two parts

A piece that stops at a text also stops at the beginnings of that text, so a sequence of pieces may
be cut off behind any of them (`Stand.of_append`). Where no piece goes across the border of `s` and
`t`, the scan of `s ++ t` is that of `s` less its end token, followed by that of `t` moved on by
what stands before it (`scan_append`). No piece but a string or a comment goes across the border to
a delimiter (`pieces_append_delimiter`).
-/

namespace LoxLex

/-! ## Cutting off -/

theorem EndsRun.of_append {p : Char → Bool} {s t : Text} (h : EndsRun p (s ++ t)) : EndsRun p s := by
  intro c hc
  obtain ⟨rest, rfl⟩ := List.head?_eq_some_iff.mp hc
  exact h c rfl

theorem Piece.startsFraction_of_append {s t : Text} (h : startsFraction s = true) :
    startsFraction (s ++ t) = true := by
  unfold startsFraction at h
  split at h
  · exact h
  · cases h

theorem Piece.StopsAt.of_append {p : Piece} {s t : Text} (h : p.StopsAt (s ++ t)) :
    p.StopsAt s := by
  cases p with
  | symbol s => exact ⟨fun hs => (h.1 hs).of_append, fun hs => (h.2 hs).of_append⟩
  | comment _ | word _ => exact EndsRun.of_append h
  | unclosed body => exact (List.append_eq_nil_iff.mp h).1
  | numeral n =>
    refine ⟨h.1.of_append, fun hn => Bool.eq_false_iff.mpr fun hs => ?_⟩
    have := h.2 hn
    rw [startsFraction_of_append hs] at this
    cases this
  | blank _ | quoted _ | foreign _ => trivial

theorem Stand.of_append {ps : List Piece} {s t : Text} (h : Stand ps (s ++ t)) : Stand ps s := by
  induction ps with
  | nil => trivial
  | cons p ps ih =>
    obtain ⟨hw, hs, hps⟩ := h
    rw [← List.append_assoc] at hs
    exact ⟨hw, hs.of_append, ih hps⟩

/-- A text may be cut between any two of its pieces. -/
theorem pieces_of_pieces_append {source : Text} {ps qs : List Piece}
    (h : pieces source = ps ++ qs) :
    pieces (ps.flatMap Piece.text) = ps ∧ pieces (qs.flatMap Piece.text) = qs := by
  have hstand := stand_pieces source
  rw [h, Stand.append_iff] at hstand
  have hps : Stand ps ([] ++ (qs.flatMap Piece.text ++ [])) := hstand.1
  exact ⟨pieces_eq_iff.mpr ⟨rfl, hps.of_append⟩, pieces_eq_iff.mpr ⟨rfl, hstand.2⟩⟩

/-! ## Delimiters -/

/-- A delimiter goes on with no piece that comes before it, but for strings and comments. -/
def isDelimiter (c : Char) : Bool :=
  !isWordCharacter c && c ≠ '.' && c ≠ '/' && c ≠ '='

theorem isDelimiter_iff {c : Char} :
    isDelimiter c = true ↔ isWordCharacter c = false ∧ c ≠ '.' ∧ c ≠ '/' ∧ c ≠ '=' := by
  simp [isDelimiter, and_assoc]

theorem isDigit_of_isDelimiter {c : Char} (h : isDelimiter c = true) : c.isDigit = false :=
  (Bool.or_eq_false_iff.mp (isDelimiter_iff.mp h).1).2

/-- Where a delimiter comes next a piece stops, unless it is a string or a comment that goes on. -/
theorem Piece.stopsAt_delimiter {p : Piece} {c : Char} (hc : isDelimiter c = true)
    (hunclosed : ∀ body, p ≠ unclosed body) (hcomment : ∀ body, p = comment body → c = '\n')
    (rest : Text) : p.StopsAt (c :: rest) := by
  have hdigit := isDigit_of_isDelimiter hc
  obtain ⟨hword, hdot, hslash, hequal⟩ := isDelimiter_iff.mp hc
  cases p with
  | symbol s =>
    exact ⟨fun _ => .cons (decide_eq_false hslash) rest,
      fun _ => .cons (decide_eq_false hequal) rest⟩
  | comment body =>
    obtain rfl := hcomment body rfl
    exact .cons rfl rest
  | unclosed body => exact absurd rfl (hunclosed body)
  | numeral n =>
    refine ⟨.cons hdigit rest, fun _ => ?_⟩
    rw [startsFraction_cons, decide_eq_false hdot, Bool.false_and]
  | word w => exact .cons hword rest
  | blank _ | quoted _ | foreign _ => trivial

/-- Pieces that end their text also stand before a delimiter that the last of them leaves alone. -/
theorem Stand.before_delimiter {ps : List Piece} {c : Char} (h : Stand ps [])
    (hc : isDelimiter c = true) (hunclosed : ∀ body, .unclosed body ∉ ps)
    (hcomment : ∀ body, ps.getLast? = some (.comment body) → c = '\n') (rest : Text) :
    Stand ps (c :: rest) := by
  obtain rfl | ⟨qs, p, rfl⟩ := ps.eq_nil_or_concat'
  · trivial
  · obtain ⟨hqs, hp, -, -⟩ := append_iff.mp h
    obtain ⟨x, w, e⟩ := hp.exists_cons
    simp only [List.flatMap_cons, List.flatMap_nil, e, List.append_nil] at hqs
    refine append_iff.mpr ⟨?_, hp, ?_, trivial⟩
    · simp only [List.flatMap_cons, List.flatMap_nil, e, List.cons_append, List.append_nil]
      refine hqs.congr rfl ?_
      rw [Piece.startsFraction_cons, Piece.startsFraction_cons]
      cases w with
      | nil => simp [isDigit_of_isDelimiter hc]
      | cons y w => rfl
    · refine Piece.stopsAt_delimiter hc (fun body hb => ?_) (fun body hb => ?_) rest
      · exact hunclosed body (by simp [hb])
      · exact hcomment body (by simp [hb])

theorem pieces_append_delimiter {s : Text} {c : Char} (hc : isDelimiter c = true)
    (hunclosed : ∀ body, .unclosed body ∉ pieces s)
    (hcomment : ∀ body, (pieces s).getLast? = some (.comment body) → c = '\n') (t : Text) :
    pieces (s ++ c :: t) = pieces s ++ pieces (c :: t) := by
  rw [← pieces_append ((stand_pieces s).before_delimiter hc hunclosed hcomment t), pieces_text]

/-! ## Moving on -/

/-- The token behind so many more characters and lines. -/
def Token.moved (characters lines : Int) (t : Token) : Token :=
  { t with line := t.line + lines, offset := t.offset + characters }

theorem Token.moved_back (characters lines : Int) (t : Token) :
    (t.moved characters lines).moved (-characters) (-lines) = t := by
  simp only [Token.moved, Int.add_neg_cancel_right]

def Diagnostic.moved (lines : Int) (d : Diagnostic) : Diagnostic := { d with line := d.line + lines }

theorem Token.moved_zero : Token.moved 0 0 = id := by
  funext t
  simp only [Token.moved, Int.add_zero, id]

theorem Diagnostic.moved_zero : Diagnostic.moved 0 = id := by
  funext d
  simp only [Diagnostic.moved, Int.add_zero, id]

namespace Placed

def moved (characters lines : Nat) (x : Placed) : Placed :=
  ⟨x.offset + characters, x.line + lines, x.piece⟩

theorem token?_moved (characters lines : Nat) (x : Placed) :
    (x.moved characters lines).token? = x.token?.map (Token.moved characters lines) := by
  simp only [token?, moved, Option.map_map]
  rfl

theorem diagnostic?_moved (characters lines : Nat) (x : Placed) :
    (x.moved characters lines).diagnostic? = x.diagnostic?.map (Diagnostic.moved lines) := by
  have h : ((x.moved characters lines).endLine : Int) = x.endLine + lines := by
    simp only [endLine, moved]
    omega
  simp only [diagnostic?, Option.map_map, h]
  rfl

end Placed

theorem place_moved (characters lines offset line : Nat) (ps : List Piece) :
    place (offset + characters) (line + lines) ps =
      (place offset line ps).map (Placed.moved characters lines) := by
  induction ps generalizing offset line with
  | nil => rfl
  | cons p ps ih =>
    rw [place, place, List.map_cons, ← ih, Nat.add_right_comm, Nat.add_right_comm line]
    rfl

theorem placeAfter_eq_map (before : Text) (ps : List Piece) :
    placeAfter before ps =
      (placeAfter [] ps).map (Placed.moved before.length (Text.newlines before)) := by
  have := place_moved before.length (Text.newlines before) 0 1 ps
  rwa [Nat.zero_add] at this

theorem scan_append {s t : Text} (h : pieces (s ++ t) = pieces s ++ pieces t) :
    scan (s ++ t) = {
      tokens := (scan s).tokens.dropLast ++
        (scan t).tokens.map (Token.moved s.length (Text.newlines s))
      diagnostics := (scan s).diagnostics ++
        (scan t).diagnostics.map (Diagnostic.moved (Text.newlines s))
      line := Text.newlines s + (scan t).line } := by
  have hend : endToken (s ++ t).length (1 + (Text.newlines s + Text.newlines t)) =
      (endToken t.length (1 + Text.newlines t)).moved s.length (Text.newlines s) := by
    simp only [endToken, Token.moved, List.length_append, Token.mk.injEq, true_and]
    omega
  simp only [scan_eq, h, placeAfter_append, List.nil_append, pieces_text, placeAfter_eq_map s,
    List.filterMap_append, List.filterMap_map, List.dropLast_concat, List.map_append,
    List.map_filterMap, Function.comp_def, Placed.token?_moved, Placed.diagnostic?_moved,
    List.map_singleton, List.append_assoc, Text.newlines_append, hend, Scan.mk.injEq, true_and]
  omega

/-- The scan of a text that goes on for one more piece. -/
theorem scan_append_piece {s t : Text} {p : Piece} (h : pieces (s ++ t) = pieces s ++ [p]) :
    scan (s ++ t) = {
      tokens := (scan s).tokens.dropLast ++
        (Placed.token? ⟨s.length, (scan s).line, p⟩).toList ++
        [endToken (s ++ t).length ((scan s).line + Text.newlines t)]
      diagnostics := (scan s).diagnostics ++
        (Placed.diagnostic? ⟨s.length, (scan s).line, p⟩).toList
      line := (scan s).line + Text.newlines t } := by
  have hplaced {α : Type} (f : Placed → Option α) :
      (placeAfter [] (pieces (s ++ t))).filterMap f =
        (placeAfter [] (pieces s)).filterMap f ++
          (f ⟨s.length, 1 + Text.newlines s, p⟩).toList := by
    rw [h, placeAfter_append, List.filterMap_append, List.nil_append, pieces_text,
      filterMap_placeAfter_cons]
    exact congrArg _ (List.append_nil _)
  simp only [scan_eq, hplaced, List.dropLast_concat, Text.newlines_append, Nat.add_assoc]

end LoxLex
