import LoxLex.Proofs.Scan.Concatenation
import LoxLex.Proofs.Scan.Unclosed

/-!
# Opening and closing strings

An open string takes the rest of its source with it and leaves all that comes before its quote as it
is, and one more quote makes a token of it. At the end of any other source one more quote opens a
string, unless it falls into a comment. `scan_open_string` says both.
-/

namespace LoxLex

variable {s body : Text}

theorem newlines_cons_quote (t : Text) : Text.newlines ('"' :: t) = Text.newlines t :=
  List.count_cons_of_ne (by decide)

theorem scan_append_unclosed (h : pieces (s ++ '"' :: body) = pieces s ++ [.unclosed body]) :
    scan (s ++ '"' :: body) = {
      tokens := (scan s).tokens.dropLast ++
        [endToken (s ++ '"' :: body).length ((scan s).line + Text.newlines body)]
      diagnostics := (scan s).diagnostics ++
        [Fault.unterminatedString.diagnostic ((scan s).line + Text.newlines body : Nat)]
      line := (scan s).line + Text.newlines body } := by
  simp only [scan_append_piece h, Placed.token?, Placed.diagnostic?, Placed.endLine, Piece.token?,
    Piece.fault?, Piece.text, newlines_cons_quote, Option.map_some, Option.map_none,
    Option.toList_some, Option.toList_none, List.append_nil]

theorem scan_append_quoted (h : pieces (s ++ '"' :: (body ++ ['"'])) = pieces s ++ [.quoted body]) :
    scan (s ++ '"' :: (body ++ ['"'])) = {
      tokens := (scan s).tokens.dropLast ++
        [⟨.string, '"' :: (body ++ ['"']), .text body, (scan s).line, s.length⟩,
          endToken (s ++ '"' :: (body ++ ['"'])).length ((scan s).line + Text.newlines body)]
      diagnostics := (scan s).diagnostics
      line := (scan s).line + Text.newlines body } := by
  have hline : Text.newlines ('"' :: (body ++ ['"'])) = Text.newlines body := by
    rw [newlines_cons_quote, Text.newlines_append, newlines_cons_quote]
    rfl
  simp only [scan_append_piece h, Placed.token?, Placed.diagnostic?, Piece.token?, Piece.fault?,
    Piece.text, hline, Option.map_some, Option.map_none, Option.toList_some, Option.toList_none,
    List.append_nil, List.append_assoc, List.cons_append, List.nil_append]

/-- A source with an open string is the text before the quote that opens it, the quote and the
string, and one more quote closes the string. -/
theorem exists_open_quote {source : Text}
    (h : withCode "L002".toList (scan source).diagnostics ≠ []) :
    ∃ s body, source = s ++ '"' :: body ∧ (∀ b, .unclosed b ∉ pieces s) ∧
      pieces (s ++ '"' :: body) = pieces s ++ [.unclosed body] ∧
      pieces (s ++ '"' :: (body ++ ['"'])) = pieces s ++ [.quoted body] := by
  obtain ⟨ps, body, hpieces⟩ := exists_unclosed h
  obtain ⟨hps, -⟩ := pieces_of_pieces_append hpieces
  have hsource : source = ps.flatMap Piece.text ++ '"' :: body := by
    rw [← pieces_text source, hpieces, List.flatMap_append]
    simp [Piece.text]
  have hstand := stand_pieces source
  rw [hpieces] at hstand
  obtain ⟨hbefore, hbody, -⟩ := Stand.append_iff.mp hstand
  refine ⟨_, body, hsource, ?_, ?_, ?_⟩
  · rw [hps]
    exact hstand.not_mem_init
  · rw [← hsource, hps, hpieces]
  · -- what comes before the quote is cut the same way, whatever comes behind it
    have hquoted : Stand ps ('"' :: (body ++ ['"'])) := hbefore.congr rfl rfl
    have hlast : pieces (Piece.quoted body).text = [.quoted body] :=
      pieces_eq_iff.mpr ⟨List.flatMap_singleton .., hbody, trivial, trivial⟩
    rw [hps, pieces_append hquoted]
    exact congrArg _ hlast

/-- One more quote at the end of a source without an open string opens one. -/
theorem pieces_append_quote {source : Text}
    (h : withCode "L002".toList (scan source).diagnostics = [])
    (hcomment : ∀ body, (pieces source).getLast? ≠ some (.comment body)) :
    pieces (source ++ ['"']) = pieces source ++ [.unclosed []] := by
  have hlast : pieces ['"'] = [.unclosed []] := by decide +kernel
  rw [pieces_append_delimiter (by decide) (unterminated_eq_nil_iff.mp h)
    (fun body hb => absurd hb (hcomment body)), hlast]

/-- In the first part `q` is the offset of the quote that opens the string, in the second one no
string is open at the end of the source and no comment either. -/
theorem scan_open_string (source : Text) :
    (withCode "L002".toList (scan source).diagnostics ≠ [] →
      ∃ q, source[q]? = some '"' ∧
        (pieces source).getLast? = some (.unclosed (source.drop (q + 1))) ∧
        let before := scan (source.take q)
        let fault := Fault.unterminatedString.diagnostic (scan source).line
        withCode "L002".toList (scan source).diagnostics = [fault] ∧
        (scan source).tokens.dropLast = before.tokens.dropLast ∧
        (scan source).diagnostics = before.diagnostics ++ [fault] ∧
        withCode "L002".toList (scan (source ++ ['"'])).diagnostics = [] ∧
        scan (source ++ ['"']) = {
          tokens := before.tokens.dropLast ++
            [⟨.string, source.drop q ++ ['"'], .text (source.drop (q + 1)), before.line, q⟩,
              endToken (source.length + 1) (scan source).line]
          diagnostics := before.diagnostics
          line := (scan source).line }) ∧
    (withCode "L002".toList (scan source).diagnostics = [] →
      (∀ body, (pieces source).getLast? ≠ some (.comment body)) →
      scan (source ++ ['"']) = {
        tokens := (scan source).tokens.dropLast ++
          [endToken (source.length + 1) (scan source).line]
        diagnostics := (scan source).diagnostics ++
          [Fault.unterminatedString.diagnostic (scan source).line]
        line := (scan source).line }) := by
  constructor
  · intro h
    obtain ⟨s, body, rfl, hclosed, hopen, hquoted⟩ := exists_open_quote h
    have hbefore := unterminated_eq_nil_iff.mpr hclosed
    have hscan := scan_append_unclosed hopen
    have hscan' := scan_append_quoted hquoted
    have hdrop : (s ++ '"' :: body).drop (s.length + 1) = body := by simp
    refine ⟨s.length, by simp, by rw [hopen, hdrop, List.getLast?_concat], ?_⟩
    rw [hdrop, List.take_left, List.drop_left, List.append_assoc, List.cons_append, hscan', hscan]
    refine ⟨?_, List.dropLast_concat, rfl, hbefore, ?_⟩
    · rw [withCode_append, hbefore]
      rfl
    · simp [Nat.add_assoc]
  · intro h hcomment
    have hscan := scan_append_unclosed (pieces_append_quote h hcomment)
    rw [List.length_append] at hscan
    exact hscan

/-- An open string with slashes in it, behind a fault and a number, and a lone slash that a quote
comes after. -/
theorem scan_open_string_slashes :
    let opened : Text := ['~', '1', '"', '\n', '/', '/']
    let slash : Text := ['@', '/']
    withCode "L002".toList (scan opened).diagnostics ≠ [] ∧
      (∃ q, opened[q]? = some '"' ∧
        (scan opened).diagnostics = (scan (opened.take q)).diagnostics ++
          [Fault.unterminatedString.diagnostic 2] ∧
        (scan (opened ++ ['"'])).tokens = (scan (opened.take q)).tokens.dropLast ++
          [⟨.string, opened.drop q ++ ['"'], .text (opened.drop (q + 1)),
            (scan (opened.take q)).line, q⟩, endToken 7 2]) ∧
      withCode "L002".toList (scan slash).diagnostics = [] ∧
      (∀ body, (pieces slash).getLast? ≠ some (.comment body)) ∧
      scan (slash ++ ['"']) = {
        tokens := [⟨.symbol .slash, ['/'], .none, 1, 1⟩, endToken 3 1]
        diagnostics := [(Fault.unexpectedCharacter '@').diagnostic 1,
          Fault.unterminatedString.diagnostic 1]
        line := 1 } := by
  intro opened slash
  have hopened : withCode "L002".toList (scan opened).diagnostics ≠ [] := by decide +kernel
  have hslash : withCode "L002".toList (scan slash).diagnostics = [] := by decide +kernel
  have hlast : (pieces slash).getLast? = some (.symbol .slash) := by decide +kernel
  have hcomment : ∀ body, (pieces slash).getLast? ≠ some (.comment body) := by
    rw [hlast]
    exact nofun
  obtain ⟨q, hq, -, -, -, hdiagnostics, -, hclosed⟩ := (scan_open_string opened).1 hopened
  have hafter := (scan_open_string slash).2 hslash hcomment
  refine ⟨hopened, ⟨q, hq, hdiagnostics, congrArg Scan.tokens hclosed⟩, hslash, hcomment, ?_⟩
  rw [hafter]
  decide +kernel

end LoxLex
