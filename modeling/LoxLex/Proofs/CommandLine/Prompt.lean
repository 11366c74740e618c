import LoxLex.Proofs.CommandLine.Script
import LoxLex.Proofs.Scan.Lines
import LoxLex.Proofs.Text.Lines

/-!
# The prompt and scripts

`prompt_shows_scripts`: at the prompt every line of the input is answered with what the program
shows of a script that holds this line, and nothing else is written but the prompts.
-/

namespace LoxLex

theorem line_of_mem_diagnostics {source : Text} {d : Diagnostic}
    (h : d ∈ (scan source).diagnostics) : 1 ≤ d.line ∧ d.line ≤ (scan source).line := by
  have hlast : (scan source).line = 1 + Text.newlines source := rfl
  rw [scan_eq] at h
  obtain ⟨x, hx, hd⟩ := List.mem_filterMap.mp h
  obtain ⟨before, after, hsource, -, hline⟩ := mem_placeAfter_pieces hx
  have hnewlines := congrArg Text.newlines hsource
  rw [Text.newlines_append, Text.newlines_append] at hnewlines
  rw [Placed.line_of_diagnostic? hd, Placed.endLine, hline]
  omega

namespace CommandLine

open Utf8 (encode)

/-- What the program shows of a script whose file holds the text `s`. -/
def ShownOfScript (count : Bool) (s : Text) (o : Outcome) : Prop :=
  ∃ arguments files path input inputEnd, parse arguments = .ok (.scan (some path) count) ∧
    '\x00' ∉ path ∧ files.read path = .ok (encode s) ∧ o = run arguments files input inputEnd

theorem read_add_file (content : Utf8.Bytes) :
    (FileTree.add {} ['a'] (.file content)).read ['a'] = .ok content := by
  rfl

theorem shownOfScript_iff {count : Bool} {s : Text} {o : Outcome} :
    ShownOfScript count s o ↔ o = scanSource count s := by
  constructor
  · rintro ⟨arguments, files, path, input, inputEnd, harguments, hnul, hread, rfl⟩
    rw [run_of_parse harguments, (load_eq_ok_iff hnul hread).mpr rfl]
    rfl
  · rintro rfl
    have hread := read_add_file (encode s)
    have hnul : '\x00' ∉ ['a'] := by decide
    have hload := (load_eq_ok_iff hnul hread).mpr rfl
    obtain ⟨arguments, harguments⟩ :
        ∃ arguments, parse arguments = .ok (.scan (some ['a']) count) := by
      cases count with
      | false => exact ⟨[['a']], by decide +kernel⟩
      | true => exact ⟨["--count".toList, ['a']], by decide +kernel⟩
    refine ⟨arguments, _, ['a'], [], .closed, harguments, hnul, hread, ?_⟩
    rw [run_of_parse harguments, hload]
    rfl

variable {count : Bool}

theorem on_turn (line : Text) :
    Output.on .standardOutput (turn count line) = (scanSource count line).stdout ∧
      Output.on .standardError (turn count line) = (scanSource count line).stderr := by
  simp [turn, scanSource, Output.on]

theorem stdout_converse (inputEnd : InputEnd) (ls : List Text) :
    Output.on .standardOutput (converse count inputEnd ls) =
      ls.flatMap (fun l => promptText ++ (scanSource count l).stdout) ++
        (promptText ++ promptEnd inputEnd) := by
  induction ls with
  | nil => simp [converse, Output.on]
  | cons l ls ih =>
    have hprompt : Output.on .standardOutput [⟨.standardOutput, promptText⟩] = promptText := rfl
    rw [converse, ← List.singleton_append, Output.on_append, Output.on_append, hprompt,
      (on_turn l).1, ih, List.flatMap_cons]
    simp only [List.append_assoc]

theorem stderr_converse (inputEnd : InputEnd) (ls : List Text) :
    Output.on .standardError (converse count inputEnd ls) =
      ls.flatMap fun l => (scanSource count l).stderr := by
  induction ls with
  | nil => simp [converse, Output.on]
  | cons l ls ih =>
    have hprompt : Output.on .standardError [⟨.standardOutput, promptText⟩] = [] := rfl
    rw [converse, ← List.singleton_append, Output.on_append, Output.on_append, hprompt,
      (on_turn l).2, ih, List.flatMap_cons, List.nil_append]

theorem run_of_parse_none {arguments : List Text} (h : parse arguments = .ok (.scan none count))
    (files : FileTree) (input : Text) (inputEnd : InputEnd) :
    run arguments files input inputEnd = prompt count input inputEnd :=
  run_of_parse_ok h files input inputEnd

theorem promptText_append_promptEnd (inputEnd : InputEnd) :
    promptText ++ promptEnd inputEnd = "> \n".toList := by
  cases inputEnd <;> rfl

/-- What is shown of a line of the input, which no line end is part of. -/
theorem shown_of_isLine {l : Text} (h : Text.IsLine l) :
    (∀ d ∈ (scan l).diagnostics, d.line = 1) ∧
      (scanSource count l).stderr = Text.ofLines ((scan l).diagnostics.map Diagnostic.display) ∧
      (count = true → (scanSource count l).stdout =
        Text.decimal (scan l).tokens.length ++ " tokens, 1 lines\n".toList) := by
  refine ⟨fun d hd => ?_, by rw [scanSource_eq], fun hcount => ?_⟩
  · obtain ⟨hfirst, hlast⟩ := line_of_mem_diagnostics hd
    have : (scan l).line = 1 := by rw [scan_eq, h.newlines]
    omega
  · have hone : Text.decimal (1 + 0) = ['1'] := by decide
    rw [scanSource_eq, listing, if_pos hcount, h.newlines, hone]
    simp [Text.ofLines]

/-- Without a script, or with an empty one, the program answers line by line. The answer to a line
is what it shows of any script with this text. -/
theorem prompt_shows_scripts (files : FileTree) (count : Bool) (input : Text)
    (inputEnd : InputEnd) :
    let options : List Text := if count then ["--count".toList] else []
    Text.InLines input (Text.lines input) ∧
    (∀ arguments ∈ [options, options ++ [[]], [] :: options],
      parse arguments = .ok (.scan none count)) ∧
    ∃ shown : Text → Outcome,
      (∀ l o, ShownOfScript count l o ↔ o = shown l) ∧
      (∀ arguments, parse arguments = .ok (.scan none count) →
        let o := run arguments files input inputEnd
        o.ExitsWith 0 ∧
          o.stdout = (Text.lines input).flatMap (fun l => "> ".toList ++ (shown l).stdout) ++
            "> \n".toList ∧
          o.stderr = (Text.lines input).flatMap fun l => (shown l).stderr) ∧
      ∀ l ∈ Text.lines input,
        (∀ d ∈ (scan l).diagnostics, d.line = 1) ∧
        (shown l).stderr = Text.ofLines ((scan l).diagnostics.map Diagnostic.display) ∧
        (count = true → (shown l).stdout =
          Text.decimal (scan l).tokens.length ++ " tokens, 1 lines\n".toList) := by
  intro options
  have hlines : Text.InLines input (Text.lines input) := Text.lines_eq_iff.mp rfl
  refine ⟨hlines, ?_, scanSource count, fun l o => shownOfScript_iff, ?_, fun l hl =>
    shown_of_isLine (hlines.isLine l hl)⟩
  · cases count <;> decide +kernel
  · intro arguments harguments
    rw [run_of_parse_none harguments]
    refine ⟨⟨.success, rfl, rfl⟩, ?_, stderr_converse inputEnd _⟩
    rw [prompt, stdout_converse, promptText_append_promptEnd]
    rfl

/-- A session that is interrupted: a line with an open string, an empty one, one with a fault and a
last one without an end. -/
theorem prompt_shows_scripts_interrupted :
    let input : Text := ['"', '\r', '\n', '\n', '@', '\r', 'a', ' ', '1']
    let lines : List Text := [['"'], [], ['@'], ['a', ' ', '1']]
    let o := run ["--count".toList, []] {} input .interrupted
    parse ["--count".toList, []] = .ok (.scan none true) ∧ Text.lines input = lines ∧
      o.ExitsWith 0 ∧ o.stdout = "> 1 tokens, 1 lines\n> 1 tokens, 1 lines\n".toList ++
        "> 1 tokens, 1 lines\n> 3 tokens, 1 lines\n> \n".toList ∧
      o.stderr = "[line 1] Error: Unterminated string.\n".toList ++
        "[line 1] Error: Unexpected character: '@'.\n".toList := by
  intro input lines o
  obtain ⟨-, hparse, shown, hshown, hrun, -⟩ :=
    prompt_shows_scripts {} true input .interrupted
  have hflags : parse ["--count".toList, []] = .ok (.scan none true) :=
    hparse _ (by decide)
  have hlines : Text.lines input = lines := by decide +kernel
  have hscan : shown = scanSource true := funext fun l =>
    (shownOfScript_iff.mp ((hshown l _).mpr rfl))
  obtain ⟨hexit, hstdout, hstderr⟩ := hrun _ hflags
  rw [hlines, hscan] at hstdout hstderr
  refine ⟨hflags, hlines, hexit, hstdout.trans ?_, hstderr.trans ?_⟩
  · decide +kernel
  · decide +kernel

end CommandLine

end LoxLex
