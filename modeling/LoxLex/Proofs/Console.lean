import LoxLex.Proofs.CommandLine.Script
import LoxLex.Proofs.Token.Display

/-!
# Consoles

What a console shows of a source tells all of its tokens but where they stand. The lines of the
tokens are read back one after the other, and lines that a reporter writes to the same stream before
them begin with a bracket, which no name of a kind does. `console_decodable` is the result.
-/

namespace LoxLex

/-- What is written to the stream of a console when the source is run into it, by the console and
by the reporter. -/
def consoleText (source : Text) (reporter : Reporter) (stream : Stream) : Text :=
  ((Scanner.ofSource source).runWith reporter (.console stream)).output.on stream

/-! ## Lines of diagnostics -/

theorem newline_not_mem_decimal (n : Nat) : '\n' ∉ Text.decimal n := fun h => by
  have : '\n'.isDigit = true := Nat.isDigit_of_mem_toDigits (b := 10) (by decide) (by decide) h
  cases this

theorem newline_not_mem_display {f : Fault} {line : Nat} (h : '\n' ∉ f.message) :
    '\n' ∉ (f.diagnostic line).display := by
  have hbefore : '\n' ∉ "[line ".toList := by decide
  have hbehind : '\n' ∉ "] Error: ".toList := by decide
  have hnumber : '\n' ∉ "[line ".toList ++ Text.decimalInt line :=
    List.not_mem_append hbefore (newline_not_mem_decimal line)
  exact List.not_mem_append (List.not_mem_append hnumber hbehind) h

theorem head?_display (d : Diagnostic) : d.display.head? = some '[' := by
  have : d.display = '[' :: ("line ".toList ++ Text.decimalInt d.line ++ "] Error: ".toList ++
    d.message) := rfl
  rw [this, List.head?_cons]

/-- A diagnostic is shown on one line, which begins with a bracket. -/
theorem display_of_mem_diagnostics {source : Text} {d : Diagnostic}
    (h : d ∈ (scan source).diagnostics) : d.display.head? = some '[' ∧ '\n' ∉ d.display := by
  rw [scan_eq] at h
  obtain ⟨x, hx, hd⟩ := List.mem_filterMap.mp h
  rcases Placed.of_diagnostic? hd with ⟨c, e, rfl⟩ | ⟨body, -, rfl⟩
  · have hc : '\n' ≠ c := by
      rintro rfl
      have hw := wellFormed_of_mem_placeAfter hx
      rw [e] at hw
      cases hw
    have hbefore : '\n' ∉ "Unexpected character: '".toList := by decide
    have hbehind : '\n' ∉ "'.".toList := by decide
    have hquoted : '\n' ∉ c :: "'.".toList := fun h => (List.mem_cons.mp h).elim hc hbehind
    exact ⟨head?_display _, newline_not_mem_display (List.not_mem_append hbefore hquoted)⟩
  · exact ⟨head?_display _, newline_not_mem_display (by decide)⟩

theorem Text.ofLines_cons (v : Text) (vs : List Text) :
    ofLines (v :: vs) = v ++ '\n' :: ofLines vs := by
  rw [ofLines, List.flatMap_cons, List.append_assoc]
  rfl

/-- Lines that begin with a bracket can be told from a text that does not. -/
theorem ofLines_append_cancel {vs ws : List Text} {r s : Text}
    (hvs : ∀ v ∈ vs, v.head? = some '[' ∧ '\n' ∉ v) (hws : ∀ w ∈ ws, w.head? = some '[' ∧ '\n' ∉ w)
    (hr : r.head? ≠ some '[') (hs : s.head? ≠ some '[')
    (h : Text.ofLines vs ++ r = Text.ofLines ws ++ s) : r = s := by
  have hne (v : Text) (hv : v.head? = some '[') (t r : Text) (hr : r.head? ≠ some '[') :
      v ++ '\n' :: t ≠ r := by
    rintro rfl
    exact hr (by rw [List.head?_append, hv]; rfl)
  induction vs generalizing ws with
  | nil =>
    cases ws with
    | nil => exact h
    | cons w ws =>
      rw [Text.ofLines_cons, List.append_assoc] at h
      exact absurd h.symm (hne w (hws w List.mem_cons_self).1 _ r hr)
  | cons v vs ih =>
    obtain ⟨hv, hvline⟩ := hvs v List.mem_cons_self
    cases ws with
    | nil =>
      rw [Text.ofLines_cons, List.append_assoc] at h
      exact absurd h (hne v hv _ s hs)
    | cons w ws =>
      rw [Text.ofLines_cons, Text.ofLines_cons, List.append_assoc, List.append_assoc] at h
      obtain ⟨-, hrest⟩ := Text.append_cons_inj hvline (hws w List.mem_cons_self).2 h
      exact ih (fun v hv => hvs v (List.mem_cons_of_mem _ hv))
        (fun w hw => hws w (List.mem_cons_of_mem _ hw)) hrest

/-! ## Lines of tokens -/

theorem head?_ofLines_display (ts : List Token) :
    (Text.ofLines (ts.map Token.display)).head? ≠ some '[' := by
  cases ts with
  | nil => exact nofun
  | cons t ts =>
    obtain ⟨c, w, e, hletter, -⟩ := t.kind.name_eq_cons
    simp only [Text.ofLines, List.map_cons, List.flatMap_cons, Token.display, e, List.cons_append,
      List.head?_cons, ne_eq, Option.some.injEq]
    rintro rfl
    cases hletter

/-- Tokens that are displayed alike are alike, one by one. -/
theorem map_content_eq {ts us : List Token} (hts : ∀ t ∈ ts, t.Scanned) (hus : ∀ u ∈ us, u.Scanned)
    (h : Text.ofLines (ts.map Token.display) = Text.ofLines (us.map Token.display)) :
    ts.map Token.content = us.map Token.content := by
  induction ts generalizing us with
  | nil =>
    cases us with
    | nil => rfl
    | cons u us => simp [Text.ofLines] at h
  | cons t ts ih =>
    cases us with
    | nil => simp [Text.ofLines] at h
    | cons u us =>
      rw [List.map_cons, List.map_cons, Text.ofLines_cons, Text.ofLines_cons] at h
      obtain ⟨hcontent, hrest⟩ :=
        (hts t List.mem_cons_self).display_append_inj (hus u List.mem_cons_self) h
      rw [List.map_cons, List.map_cons, hcontent, ih (fun t ht => hts t (List.mem_cons_of_mem _ ht))
        (fun u hu => hus u (List.mem_cons_of_mem _ hu)) hrest]

/-! ## Runs -/

theorem Reporter.on_report_cases (r : Reporter) (stream : Stream) (ds : List Diagnostic) :
    Output.on stream (r.report ds).2 = [] ∨
      Output.on stream (r.report ds).2 = Text.ofLines (ds.map Diagnostic.display) := by
  unfold Reporter.report
  split
  · exact .inl rfl
  · rw [write, Output.on_linesTo]
    split
    · exact .inr rfl
    · exact .inl rfl

theorem exists_consoleText (source : Text) (reporter : Reporter) (stream : Stream) :
    ∃ ds : List Diagnostic, (∀ d ∈ ds, d ∈ (scan source).diagnostics) ∧
      consoleText source reporter stream = Text.ofLines (ds.map Diagnostic.display) ++
        Text.ofLines ((scan source).tokens.map Token.display) := by
  have htokens : Output.on stream ((Sink.console stream).receive (scan source).tokens).2 =
      Text.ofLines ((scan source).tokens.map Token.display) := by
    rw [Sink.receive, Output.on_linesTo, if_pos rfl]
    rfl
  rw [consoleText, Scanner.runWith_ofSource, Output.on_append, htokens]
  rcases reporter.on_report_cases stream (scan source).diagnostics with h | h
  · exact ⟨[], List.forall_mem_nil _, by rw [h]; rfl⟩
  · exact ⟨(scan source).diagnostics, fun _ hd => hd, by rw [h]⟩

/-- Sources that show the same text on their consoles have tokens of the same kinds with the same
lexemes and values, in the same order, whatever their strings and diagnostics look like. -/
theorem console_decodable {a b : Text} {reporter reporter' : Reporter} {stream stream' : Stream}
    (h : consoleText a reporter stream = consoleText b reporter' stream') :
    (scan a).tokens.map Token.content = (scan b).tokens.map Token.content := by
  obtain ⟨ds, hds, ha⟩ := exists_consoleText a reporter stream
  obtain ⟨es, hes, hb⟩ := exists_consoleText b reporter' stream'
  have hlines {source : Text} {ds : List Diagnostic}
      (hds : ∀ d ∈ ds, d ∈ (scan source).diagnostics) :
      ∀ v ∈ ds.map Diagnostic.display, v.head? = some '[' ∧ '\n' ∉ v := by
    intro v hv
    obtain ⟨d, hd, rfl⟩ := List.mem_map.mp hv
    exact display_of_mem_diagnostics (hds d hd)
  rw [ha, hb] at h
  have htokens := ofLines_append_cancel (hlines hds) (hlines hes) (head?_ofLines_display _)
    (head?_ofLines_display _) h
  exact map_content_eq (fun t ht => scanned_of_mem_tokens ht) (fun u hu => scanned_of_mem_tokens hu)
    htokens

/-- A string that looks like the line of the end token, behind a fault that is not shown and behind
blanks and a comment. -/
theorem console_decodable_imitated :
    let body : Text := ['\n', 'E', 'O', 'F', ' ', ' ', 'n', 'u', 'l', 'l']
    let a : Text := '@' :: '"' :: body ++ ['"']
    let b : Text := ' ' :: '"' :: body ++ ['"', '/', '/', '"']
    consoleText a .silent .standardOutput = consoleText b {} (.memory ['m']) ∧
      (scan a).tokens.map Token.content = (scan b).tokens.map Token.content := by
  intro body a b
  have h : consoleText a .silent .standardOutput = consoleText b {} (.memory ['m']) := by
    decide +kernel
  exact ⟨h, console_decodable h⟩

end LoxLex
