import LoxLex.Proofs.Scan.Comments
import LoxLex.Proofs.Scan.LineBreak
import LoxLex.Proofs.Scan.Rendering

/-!
# Carriage returns

`crlf` puts a carriage return before every line feed of a text. The carriage return is a blank of its
own, or the last character of a comment, or a part of a string that goes on for several lines, so a
scan of the converted text has the same tokens on the same lines (`scan_crlf`).
-/

namespace LoxLex

/-- The text with lines that end in a carriage return and a line feed. -/
def crlf (t : Text) : Text := t.flatMap fun c => if c = '\n' then ['\r', '\n'] else [c]

/-! ## Converted texts -/

variable {t rest : Text}

theorem crlf_append (s t : Text) : crlf (s ++ t) = crlf s ++ crlf t := List.flatMap_append

theorem crlf_newline (t : Text) : crlf ('\n' :: t) = '\r' :: '\n' :: crlf t := rfl

theorem crlf_cons {c : Char} (h : c ≠ '\n') (t : Text) : crlf (c :: t) = c :: crlf t := by
  rw [crlf, List.flatMap_cons, if_neg h]
  rfl

theorem crlf_eq_self (h : '\n' ∉ t) : crlf t = t := by
  induction t with
  | nil => rfl
  | cons c t ih =>
    obtain ⟨hc, ht⟩ := not_or.mp (mt List.mem_cons.mpr h)
    rw [crlf_cons (Ne.symm hc), ih ht]

theorem length_crlf (t : Text) : (crlf t).length = t.length + Text.newlines t := by
  induction t with
  | nil => rfl
  | cons c t ih =>
    by_cases hc : c = '\n'
    · subst hc
      rw [crlf_newline, List.length_cons, List.length_cons, ih, List.length_cons, Text.newlines,
        Text.newlines, List.count_cons_self]
      omega
    · rw [crlf_cons hc, List.length_cons, ih, List.length_cons, Text.newlines, Text.newlines,
        List.count_cons_of_ne hc]
      omega

theorem newlines_crlf (t : Text) : Text.newlines (crlf t) = Text.newlines t := by
  induction t with
  | nil => rfl
  | cons c t ih =>
    rw [Text.newlines, Text.newlines] at ih
    by_cases hc : c = '\n'
    · subst hc
      rw [crlf_newline, Text.newlines, Text.newlines, List.count_cons_of_ne (by decide),
        List.count_cons_self, List.count_cons_self, ih]
    · rw [crlf_cons hc, Text.newlines, Text.newlines, List.count_cons_of_ne hc,
        List.count_cons_of_ne hc, ih]

theorem quote_not_mem_crlf (h : '"' ∉ t) : '"' ∉ crlf t := by
  intro hmem
  obtain ⟨c, hc, hq⟩ := List.mem_flatMap.mp hmem
  split at hq
  · simp at hq
  · exact h (List.mem_singleton.mp hq ▸ hc)

theorem EndsRun.crlf {q : Char → Bool} (hq : q '\r' = false) (h : EndsRun q t) :
    EndsRun q (crlf t) := by
  cases t with
  | nil => exact h
  | cons c t =>
    by_cases hc : c = '\n'
    · subst hc
      exact .cons hq _
    · rw [crlf_cons hc]
      exact h.congr rfl

theorem startsFraction_crlf (h : Piece.startsFraction (crlf t) = true) :
    Piece.startsFraction t = true := by
  cases t with
  | nil => exact h
  | cons c t =>
    by_cases hc : c = '\n'
    · subst hc
      cases h
    · rw [crlf_cons hc] at h
      exact Piece.startsFraction_cons_append (w := []) (fun hr => hr.crlf rfl) h

/-! ## Converted pieces -/

namespace Piece

variable {p : Piece}

/-- The pieces that a piece becomes, unless it is a comment with a line break behind it. -/
def crlf : Piece → List Piece
  | blank c => if c = '\n' then [blank '\r', blank '\n'] else [blank c]
  | quoted body => [quoted (LoxLex.crlf body)]
  | unclosed body => [unclosed (LoxLex.crlf body)]
  | p => [p]

/-- Only a line break becomes two pieces, and all others stand for what they stood for. -/
theorem eq_newline_or_crlf_eq_singleton (p : Piece) :
    p = blank '\n' ∨ ∃ q, p.crlf = [q] ∧
      q.token? = p.token?.map (fun (k, v) => (k, v.mapText LoxLex.crlf)) ∧ q.fault? = p.fault? := by
  cases p with
  | blank c =>
    by_cases hc : c = '\n'
    · exact .inl (hc ▸ rfl)
    · exact .inr ⟨blank c, if_neg hc, rfl, rfl⟩
  | _ => exact .inr ⟨_, rfl, rfl, rfl⟩

theorem WellFormed.text_crlf (h : p.WellFormed) : p.crlf.flatMap text = LoxLex.crlf p.text := by
  have hsingle (ht : '\n' ∉ p.text) : [p].flatMap text = LoxLex.crlf p.text := by
    rw [List.flatMap_singleton, crlf_eq_self ht]
  cases p with
  | symbol s => exact hsingle fun hc => (h.lead_of_mem rfl (by simp) hc).1 rfl
  | comment body =>
    have hbody : '\n' ∉ body := h
    exact hsingle (by simpa [text] using hbody)
  | blank c =>
    by_cases hc : c = '\n'
    · rw [hc]
      rfl
    · rw [crlf, if_neg hc, text, crlf_cons hc]
      rfl
  | quoted body =>
    rw [crlf, List.flatMap_singleton, text, text, crlf_append, crlf_cons (by decide)]
    rfl
  | unclosed body =>
    rw [crlf, List.flatMap_singleton, text, text, crlf_cons (by decide)]
  | numeral n => exact hsingle fun hc => (h.lead_of_mem rfl (by simp) hc).1 rfl
  | word w => exact hsingle fun hc => (h.lead_of_mem rfl (Kind.ofWord_ne_string w) hc).1 rfl
  | foreign c =>
    have hc : Lead.of c = .foreign := h
    refine hsingle fun hmem => ?_
    rw [← List.mem_singleton.mp hmem] at hc
    cases hc

theorem stand_crlf (h : p.WellFormed) (hs : p.StopsAt rest)
    (hcomment : ∀ body, p = comment body → rest = []) : Stand p.crlf (LoxLex.crlf rest) := by
  have hreturn : ∀ q ∈ runs, q '\r' = false := by decide
  have hstops : (∀ body, p ≠ unclosed body) → p.StopsAt (LoxLex.crlf rest) := fun hunclosed => by
    refine hs.of_runs (fun q hq hr => hr.crlf (hreturn q hq)) startsFraction_crlf
      (fun body hb => ?_) (fun body hb => absurd hb (hunclosed body))
    rw [hcomment body hb]
    exact .nil _
  cases p with
  | blank c =>
    by_cases hc : c = '\n'
    · rw [crlf, if_pos hc]
      exact ⟨rfl, trivial, rfl, trivial, trivial⟩
    · rw [crlf, if_neg hc]
      exact ⟨h, trivial, trivial⟩
  | quoted body => exact ⟨quote_not_mem_crlf h, trivial, trivial⟩
  | unclosed body =>
    obtain rfl : rest = [] := hs
    exact ⟨quote_not_mem_crlf h, rfl, trivial⟩
  | symbol _ | comment _ | numeral _ | word _ | foreign _ => exact ⟨h, hstops nofun, trivial⟩

end Piece

/-- The pieces of a converted text. The carriage return behind a comment belongs to it. -/
def convert : List Piece → List Piece
  | [] => []
  | .comment body :: .blank c :: ps => .comment (body ++ ['\r']) :: .blank c :: convert ps
  | p :: ps => p.crlf ++ convert ps

variable {p : Piece} {ps : List Piece}

theorem convert_cons (h : ∀ body, p = .comment body → ps = []) :
    convert (p :: ps) = p.crlf ++ convert ps := by
  cases p with
  | comment body =>
    obtain rfl := h body rfl
    rfl
  | _ => rfl

/-- Induction on the pieces of a text, a comment together with the line break behind it. -/
@[elab_as_elim]
theorem Stand.break_induction {motive : ∀ ps, Stand ps [] → Prop} (nil : motive [] trivial)
    (comment : ∀ body ps (h : Stand (.comment body :: .blank '\n' :: ps) []),
      motive ps h.2.2.2.2 → motive (.comment body :: .blank '\n' :: ps) h)
    (cons : ∀ p ps (h : Stand (p :: ps) []), (∀ body, p = .comment body → ps = []) →
      motive ps h.2.2 → motive (p :: ps) h) (ps : List Piece) (h : Stand ps []) : motive ps h := by
  fun_induction convert ps with
  | case1 => exact nil
  | case2 body c ps ih =>
    obtain rfl : c = '\n' := by simpa using h.after_comment
    exact comment body ps h (ih h.2.2.2.2)
  | case3 p ps hbreak ih =>
    refine cons p ps h ?_ (ih h.2.2)
    rintro body rfl
    rcases h.after_comment with hnil | ⟨qs, rfl⟩
    · exact hnil
    · exact (hbreak body '\n' qs rfl rfl).elim

/-- The carriage return behind a comment becomes the last character of it. -/
theorem crlf_comment {body : Text} (h : '\n' ∉ body) :
    crlf ((Piece.comment body).text ++ (Piece.blank '\n').text) =
      (Piece.comment (body ++ ['\r'])).text ++ (Piece.blank '\n').text := by
  have hslashes : '\n' ∉ '/' :: '/' :: body := by simpa using h
  rw [crlf_append, Piece.text, crlf_eq_self hslashes]
  simp [Piece.text, crlf]

theorem text_convert (h : Stand ps []) :
    (convert ps).flatMap Piece.text = crlf (ps.flatMap Piece.text) := by
  induction ps, h using Stand.break_induction with
  | nil => rfl
  | comment body ps h ih =>
    rw [convert, List.flatMap_cons, List.flatMap_cons, ih, ← List.append_assoc, ← crlf_comment h.1,
      ← crlf_append, List.append_assoc, List.flatMap_cons, List.flatMap_cons]
  | cons p ps h hlast ih =>
    rw [convert_cons hlast, List.flatMap_append, ih, h.1.text_crlf, List.flatMap_cons, crlf_append]

theorem stand_convert (h : Stand ps []) : Stand (convert ps) [] := by
  induction ps, h using Stand.break_induction with
  | nil => trivial
  | comment body ps h ih =>
    have hbody : '\n' ∉ body := h.1
    exact ⟨by simpa [Piece.WellFormed] using hbody, .cons rfl _, rfl, trivial, ih⟩
  | cons p ps h hlast ih =>
    rw [convert_cons hlast]
    refine Stand.append_iff.mpr ⟨?_, ih⟩
    have hs := h.2.1
    rw [List.append_nil] at hs ⊢
    rw [text_convert h.2.2]
    refine Piece.stand_crlf h.1 hs fun body hb => ?_
    rw [hlast body hb]
    rfl

theorem pieces_crlf (source : Text) : pieces (crlf source) = convert (pieces source) := by
  have h := stand_pieces source
  refine pieces_eq_iff.mpr ⟨?_, stand_convert h⟩
  rw [text_convert h, pieces_text]

/-! ## Outcomes -/

/-- What is made of the converted pieces, one by one. -/
theorem filterMap_convert {α : Type} {f g : Placed → Option α} {source : Text}
    (hsilent : ∀ x : Placed, x.piece.token? = none → x.piece.fault? = none →
      f x = none ∧ g x = none)
    (hpiece : ∀ before p after, source = before ++ p.text ++ after → p.WellFormed →
      (placeAfter (crlf before) p.crlf).filterMap f =
        (g ⟨before.length, 1 + Text.newlines before, p⟩).toList)
    (h : Stand ps []) (before : Text) (hs : source = before ++ ps.flatMap Piece.text) :
    (placeAfter (crlf before) (convert ps)).filterMap f = (placeAfter before ps).filterMap g := by
  induction ps, h using Stand.break_induction generalizing before with
  | nil => rfl
  | comment body ps h ih =>
    have htext : crlf before ++ (Piece.comment (body ++ ['\r'])).text ++ (Piece.blank '\n').text =
        crlf (before ++ (Piece.comment body).text ++ (Piece.blank '\n').text) := by
      rw [List.append_assoc, ← crlf_comment h.1, ← crlf_append, List.append_assoc]
    rw [convert, filterMap_placeAfter_cons, filterMap_placeAfter_cons, filterMap_placeAfter_cons,
      filterMap_placeAfter_cons, (hsilent ⟨_, _, .comment (body ++ ['\r'])⟩ rfl rfl).1,
      (hsilent ⟨_, _, .comment body⟩ rfl rfl).2, (hsilent ⟨_, _, .blank '\n'⟩ rfl rfl).1,
      (hsilent ⟨_, _, .blank '\n'⟩ rfl rfl).2, htext, ih]
    simp [hs]
  | cons p ps h hlast ih =>
    have hp := hpiece before p (ps.flatMap Piece.text) (by simp [hs]) h.1
    rw [convert_cons hlast, placeAfter_append, List.filterMap_append, hp, h.1.text_crlf,
      ← crlf_append, ih _ (by simp [hs]), filterMap_placeAfter_cons]

/-- The token with the line breaks of the source before it and in it converted. -/
def Token.converted (source : Text) (t : Token) : Token :=
  { t.mapText crlf with offset := t.offset + Text.newlines (source.take t.offset.toNat) }

theorem filterMap_singleton_placeAfter {α : Type} (f : Placed → Option α) (before : Text)
    (p : Piece) :
    (placeAfter before [p]).filterMap f = (f ⟨before.length, 1 + Text.newlines before, p⟩).toList := by
  rw [filterMap_placeAfter_cons]
  exact List.append_nil _

theorem filterMap_token?_crlf {source before after : Text} (h : p.WellFormed)
    (hs : source = before ++ p.text ++ after) :
    (placeAfter (crlf before) p.crlf).filterMap Placed.token? =
      ((Placed.token? ⟨before.length, 1 + Text.newlines before, p⟩).map
        (Token.converted source)).toList := by
  rcases p.eq_newline_or_crlf_eq_singleton with rfl | ⟨q, hq, htoken, -⟩
  · rfl
  · have htext := h.text_crlf
    have hbefore : source.take before.length = before := by
      rw [hs, List.append_assoc, List.take_left]
    rw [hq, List.flatMap_singleton] at htext
    rw [hq, filterMap_singleton_placeAfter]
    simp only [Placed.token?, htoken, Option.map_map, htext, length_crlf, newlines_crlf]
    refine congrArg (fun f => (p.token?.map f).toList) ?_
    funext kl
    obtain ⟨kind, literal⟩ := kl
    simp [Token.converted, Token.mapText, hbefore]

theorem filterMap_diagnostic?_crlf (before : Text) (h : p.WellFormed) :
    (placeAfter (crlf before) p.crlf).filterMap Placed.diagnostic? =
      (Placed.diagnostic? ⟨before.length, 1 + Text.newlines before, p⟩).toList := by
  rcases p.eq_newline_or_crlf_eq_singleton with rfl | ⟨q, hq, -, hfault⟩
  · rfl
  · have htext := h.text_crlf
    rw [hq, List.flatMap_singleton] at htext
    rw [hq, filterMap_singleton_placeAfter]
    simp only [Placed.diagnostic?, Placed.endLine, hfault, htext, newlines_crlf]

theorem endToken_converted (source : Text) :
    endToken (crlf source).length (1 + Text.newlines source) =
      (endToken source.length (1 + Text.newlines source)).converted source := by
  simp only [endToken, Token.converted, Token.mapText, Int.toNat_natCast, List.take_length,
    length_crlf, Int.natCast_add]
  rfl

theorem scan_crlf_eq (source : Text) :
    scan (crlf source) = {
      scan source with tokens := (scan source).tokens.map (Token.converted source) } := by
  have hstand := stand_pieces source
  have hsource : source = [] ++ (pieces source).flatMap Piece.text := (pieces_text source).symm
  have htokens : (placeAfter [] (convert (pieces source))).filterMap Placed.token? =
      (placeAfter [] (pieces source)).filterMap fun x => x.token?.map (Token.converted source) := by
    refine filterMap_convert (fun x ht _ => ?_)
      (fun before p after hs hp => filterMap_token?_crlf hp hs) hstand [] hsource
    rw [Placed.token?_eq_none ht]
    exact ⟨rfl, rfl⟩
  have hdiagnostics : (placeAfter [] (convert (pieces source))).filterMap Placed.diagnostic? =
      (placeAfter [] (pieces source)).filterMap Placed.diagnostic? := by
    refine filterMap_convert (fun x _ hf => ?_)
      (fun before p after _ hp => filterMap_diagnostic?_crlf before hp) hstand [] hsource
    rw [Placed.diagnostic?_eq_none hf]
    exact ⟨rfl, rfl⟩
  rw [scan_eq, scan_eq, pieces_crlf, htokens, hdiagnostics, newlines_crlf, endToken_converted,
    List.map_append, List.map_filterMap, List.map_singleton]

/-- No token but a string holds a carriage return or a line feed. -/
theorem not_mem_lexeme {source : Text} {t : Token} (h : t ∈ (scan source).tokens)
    (hk : t.kind ≠ .string) : '\r' ∉ t.lexeme ∧ '\n' ∉ t.lexeme := by
  rw [tokens_scan_eq source] at h
  rcases List.mem_append.mp h with h | h
  · obtain ⟨hspells, -⟩ := spells_of_mem_tokens h
    exact ⟨fun hc => (hspells.lead_of_mem hk hc).1 rfl, fun hc => (hspells.lead_of_mem hk hc).1 rfl⟩
  · rw [List.mem_singleton.mp h]
    exact ⟨List.not_mem_nil, List.not_mem_nil⟩

/-- A source with a carriage return before every line feed scans to the same tokens and diagnostics
on the same lines, the tokens as many characters further on as there were line feeds before them.
What is put in is in the texts of strings and nowhere else. -/
theorem scan_crlf (source : Text) :
    scan (crlf source) = {
      tokens := (scan source).tokens.map fun t =>
        { t with
          lexeme := crlf t.lexeme
          literal := t.literal.mapText crlf
          offset := t.offset + Text.newlines (source.take t.offset.toNat) }
      diagnostics := (scan source).diagnostics
      line := (scan source).line } ∧
    ∀ t ∈ (scan (crlf source)).tokens, t.kind ≠ .string → '\r' ∉ t.lexeme ∧ '\n' ∉ t.lexeme :=
  ⟨scan_crlf_eq source, fun _ ht hk => not_mem_lexeme ht hk⟩

/-- Line breaks in a string and behind a comment. -/
theorem scan_crlf_in_string :
    let source : Text := ['"', '\n', '"', '/', '/', '\n', '@']
    scan (crlf source) = {
      tokens := [⟨.string, ['"', '\r', '\n', '"'], .text ['\r', '\n'], 1, 0⟩, endToken 9 3]
      diagnostics := [(Fault.unexpectedCharacter '@').diagnostic 3]
      line := 3 } ∧
    ∀ t ∈ (scan (crlf source)).tokens, t.kind ≠ .string → '\r' ∉ t.lexeme ∧ '\n' ∉ t.lexeme := by
  intro source
  obtain ⟨hscan, hlexemes⟩ := scan_crlf source
  refine ⟨?_, hlexemes⟩
  rw [hscan]
  decide +kernel

end LoxLex
