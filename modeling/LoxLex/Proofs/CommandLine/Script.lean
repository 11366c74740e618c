import LoxLex.CommandLine.Run
import LoxLex.Proofs.SourceFile
import LoxLex.Proofs.Scan.Placed

/-!
# Scripts

What the program shows of a source text is what a scanner finds in it (`scanSource_eq`), and its
exit status is the verdict of the library. `Agrees` lists what the two have in common, and
`scanScript_agrees` says so of every file, also of those that are no text or cannot be read.
-/

namespace LoxLex

/-- The texts, each on a line of its own. -/
def Text.ofLines (texts : List Text) : Text := texts.flatMap (· ++ ['\n'])

theorem Scanner.runWith_ofSource (s : Text) (reporter : Reporter) (sink : Sink) :
    (Scanner.ofSource s).runWith reporter sink = {
      scanner := (Scanner.ofSource s).scanAll.1
      reporter := (reporter.report (scan s).diagnostics).1
      sink := (sink.receive (scan s).tokens).1
      output := (reporter.report (scan s).diagnostics).2 ++ (sink.receive (scan s).tokens).2 } := by
  rw [← result_scanAll_ofSource]
  rfl

theorem Reporter.on_report (stream : Stream) (ds : List Diagnostic) :
    Output.on stream (({} : Reporter).report ds).2 =
      if .standardError = stream then Text.ofLines (ds.map Diagnostic.display) else [] :=
  Output.on_linesTo ..

theorem scanStrict_of_nil {s : Text} (h : (scan s).diagnostics = []) :
    scanStrict s = .ok (scan s).tokens := by
  simp only [scanStrict, h]

theorem scanStrict_of_cons {s : Text} {d : Diagnostic} {ds : List Diagnostic}
    (h : (scan s).diagnostics = d :: ds) : scanStrict s = .error d := by
  simp only [scanStrict, h]

namespace CommandLine

open Utf8 (encode)

def Outcome.ExitsWith (o : Outcome) (code : Nat) : Prop :=
  ∃ status, o.ending = .exit status ∧ status.code = code

/-- What is printed of the text `s`, in which a scanner finds `r`: each token on a line of its own,
or one line with the two counts. -/
def listing (count : Bool) (s : Text) (r : Scan) : Text :=
  if count then
    Text.ofLines [Text.decimal r.tokens.length ++ " tokens, ".toList ++
      Text.decimal (1 + Text.newlines s) ++ " lines".toList]
  else Text.ofLines (r.tokens.map Token.display)

/-- What the program shows of the text `s`, in which a scanner finds `r`, beside what the library
makes of the file of that text. -/
structure Agrees (o : Outcome) (count : Bool) (s : Text) (r : Scan)
    (library : Except ScanFileError (List Token)) : Prop where
  stdout : o.stdout = listing count s r
  stderr : o.stderr = Text.ofLines (r.diagnostics.map Diagnostic.display)
  failed : o.ExitsWith 65 ↔ ∃ d, scanStrict s = .error d ∧ library = .error (.lexical d)
  /-- The library raises the diagnostic that the program shows first. -/
  first : ∀ d, scanStrict s = .error d → r.diagnostics.head? = some d ∧
    library = .error (.lexical d) ∧ d.display ++ ['\n'] <+: o.stderr
  clean : ¬o.ExitsWith 65 → o.ExitsWith 0 ∧ o.stderr = [] ∧ scanStrict s = .ok r.tokens ∧
    library = .ok r.tokens

/-- What the program shows of a script, beside what the library makes of the same file: of one that
holds a text, of one whose bytes are those of no text, and of one that cannot be read. -/
structure ScriptAgrees (o : Outcome) (count : Bool) (files : FileTree) (path : Text) : Prop where
  text : ∀ s, files.read path = .ok (encode s) →
    Agrees o count s (Scanner.ofSource s).scanAll.1.result (scanFile files path)
  undecodable : ∀ bytes, files.read path = .ok bytes → (∀ s, encode s ≠ bytes) →
    ∃ f : Utf8.Fault, scanFile files path = .error (.load (.undecodable f)) ∧ o.ExitsWith 65 ∧
      o.stdout = [] ∧ o.stderr = "Error decoding file '".toList ++ path ++ "': ".toList ++
        f.message ++ ['\n']
  unreadable : ∀ e, files.read path = .error e →
    scanFile files path = .error (.load (.unreadable e)) ∧ o.ExitsWith 66 ∧
      o.stdout = [] ∧ o.stderr = "Error reading file '".toList ++ path ++ "': ".toList ++
        e.message path ++ ['\n']

variable {count : Bool} {files : FileTree} {path : Text}

theorem scanSource_eq (count : Bool) (s : Text) :
    scanSource count s = {
      stdout := listing count s (scan s)
      stderr := Text.ofLines ((scan s).diagnostics.map Diagnostic.display)
      ending := .exit (if (scan s).hasErrors then .dataError else .success) } := by
  have hline : (Scanner.ofSource s).scanAll.1.line = 1 + Text.newlines s :=
    congrArg Scan.line (result_scanAll_ofSource s)
  have herrors : (Scanner.ofSource s).scanAll.1.hasErrors = (scan s).hasErrors :=
    congrArg Scan.hasErrors (result_scanAll_ofSource s)
  simp only [scanSource, Scanner.runWith_ofSource, Output.on_append, Reporter.on_report, herrors]
  cases count with
  | false => simp [sinkFor, Sink.receive, Output.on_linesTo, summary, listing, Text.ofLines]
  | true =>
    simp [sinkFor, Sink.counter, Sink.receive, Output.on, summary, hline, listing, Text.ofLines]

theorem exitsWith_scanSource {n : Nat} {s : Text} :
    (scanSource count s).ExitsWith n ↔ (if (scan s).hasErrors then 65 else 0) = n := by
  rw [scanSource_eq]
  constructor
  · rintro ⟨status, hstatus, rfl⟩
    cases hstatus
    split <;> rfl
  · rintro rfl
    refine ⟨_, rfl, ?_⟩
    split <;> rfl

theorem agrees_scanSource (count : Bool) (s : Text) :
    Agrees (scanSource count s) count s (scan s) ((scanStrict s).mapError .lexical) := by
  have hstdout : (scanSource count s).stdout = listing count s (scan s) := by rw [scanSource_eq]
  have hstderr : (scanSource count s).stderr =
      Text.ofLines ((scan s).diagnostics.map Diagnostic.display) := by
    rw [scanSource_eq]
  have hexits (n : Nat) : (scanSource count s).ExitsWith n ↔
      (if (scan s).hasErrors then 65 else 0) = n := exitsWith_scanSource
  cases hd : (scan s).diagnostics with
  | nil =>
    rw [Scan.hasErrors, hd] at hexits
    have hstrict := scanStrict_of_nil hd
    have hempty : (scanSource count s).stderr = [] := by rw [hstderr, hd]; rfl
    rw [hstrict]
    refine ⟨hstdout, hstderr, ?_, fun d h => ?_, fun _ => ?_⟩
    · rw [hexits]
      exact ⟨nofun, fun ⟨d, h, _⟩ => nomatch hstrict.symm.trans h⟩
    · cases hstrict.symm.trans h
    · exact ⟨(hexits 0).mpr rfl, hempty, hstrict, rfl⟩
  | cons d ds =>
    rw [Scan.hasErrors, hd] at hexits
    have hstrict := scanStrict_of_cons hd
    rw [hstrict]
    refine ⟨hstdout, hstderr, ?_, fun e he => ?_, fun h => absurd ((hexits 65).mpr rfl) h⟩
    · rw [hexits]
      exact ⟨fun _ => ⟨d, hstrict, rfl⟩, fun _ => rfl⟩
    · cases hstrict.symm.trans he
      rw [hstderr, hd]
      exact ⟨rfl, rfl, List.prefix_append ..⟩

theorem run_of_parse {arguments : List Text} (h : parse arguments = .ok (.scan (some path) count))
    (input : Text) (inputEnd : InputEnd) :
    run arguments files input inputEnd = scanScript count path (load files path) :=
  run_of_parse_ok h files input inputEnd

/-- The program and the library agree on every script, given by any arguments. -/
theorem scanScript_agrees (hnul : '\x00' ∉ path) :
    (∀ arguments input inputEnd, parse arguments = .ok (.scan (some path) count) →
      run arguments files input inputEnd = scanScript count path (load files path)) ∧
    ScriptAgrees (scanScript count path (load files path)) count files path := by
  refine ⟨fun arguments input inputEnd h => run_of_parse h input inputEnd, fun s hs => ?_,
    fun bytes hb hne => ?_, fun e he => ?_⟩
  · have hload : load files path = .ok s := (load_eq_ok_iff hnul hs).mpr rfl
    rw [scanFile_of_load hload, result_scanAll_ofSource, hload]
    exact agrees_scanSource count s
  · obtain ⟨f, hf, -⟩ := Utf8.exists_of_not_wellFormed fun ⟨s, hs⟩ => hne s hs
    have hload := load_of_decode_error hnul hb hf
    rw [hload]
    exact ⟨f, scanFile_of_load_error hload, ⟨_, rfl, rfl⟩, rfl, rfl⟩
  · have hload := load_of_unreadable hnul he
    rw [hload]
    exact ⟨scanFile_of_load_error hload, ⟨_, rfl, rfl⟩, rfl, rfl⟩

/-- A script with a fault that is counted, one that is no text, and one that is not there. -/
theorem scanScript_agrees_of_each_kind :
    let files := (FileTree.add {} ['a'] (.file [0x31, 0x40, 0x0A])).add ['b'] (.file [0x0A, 0xFF])
    Agrees (run ["--count".toList, ['a']] files [] .closed) true ['1', '@', '\n']
        (Scanner.ofSource ['1', '@', '\n']).scanAll.1.result (scanFile files ['a']) ∧
      (run [['b']] files [] .closed).ExitsWith 65 ∧ (run [['c']] files [] .closed).ExitsWith 66 := by
  intro files
  obtain ⟨hrun, hscript⟩ := @scanScript_agrees true files ['a'] (by decide)
  obtain ⟨hrun', hscript'⟩ := @scanScript_agrees false files ['b'] (by decide)
  obtain ⟨hrun'', hscript''⟩ := @scanScript_agrees false files ['c'] (by decide)
  have hfault : Utf8.decode [0x0A, 0xFF] = .error ⟨1, 0xFF, 1, .invalidStart⟩ := by decide +kernel
  have hnone (s : Text) : encode s ≠ [0x0A, 0xFF] := fun hs =>
    nomatch hfault.symm.trans (Utf8.decode_eq_ok_iff.mpr hs)
  obtain ⟨f, -, hb, -⟩ := hscript'.undecodable [0x0A, 0xFF] (by decide +kernel) hnone
  obtain ⟨-, hc, -⟩ := hscript''.unreadable .notFound (by decide +kernel)
  rw [hrun _ _ _ (by decide +kernel), hrun' _ _ _ (by decide +kernel),
    hrun'' _ _ _ (by decide +kernel)]
  exact ⟨hscript.text ['1', '@', '\n'] (by decide +kernel), hb, hc⟩

end CommandLine

end LoxLex
