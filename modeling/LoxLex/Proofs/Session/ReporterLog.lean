import LoxLex.Proofs.Session.Scanners
import LoxLex.Proofs.Session.Transcript

/-!
# Reporters in a session

The log of a reporter in a session is what the steps ask of it, one after the other
(`requestsTo`). `reporter_log` says that the log alone decides what the reporter holds and what it
writes, and that scanners only add to it: what they hold themselves is theirs.
-/

namespace LoxLex

namespace Session

variable {s : Session} {n : Nat} {r : Reporter} {name : Text} {steps : List Step}

theorem reporter_after (h : s.reporters[n]? = some r) (steps : List Step) :
    (s.after steps).reporters[n]? = some (r.handled (s.collect (requestsTo n) steps)) ∧
      writtenBy (.reporter (some n)) (s.transcript steps) =
        r.written (s.collect (requestsTo n) steps) := by
  rw [writtenBy_transcript]
  induction steps generalizing s r with
  | nil => exact ⟨h, rfl⟩
  | cons a steps ih =>
    obtain ⟨hreporter, hwritten⟩ := ih ((carries s a).reporter n r h)
    rw [collect, collect, hwritten, writtenBy_reporter h, Reporter.handled_append,
      Reporter.written_append]
    exact ⟨hreporter, rfl⟩

theorem step_readDiagnostics (hn : s.reporterNumbers.find? name = some n)
    (hr : s.reporters[n]? = some r) :
    s.step (.readDiagnostics name) = (s, ⟨.ok (.report r.hadError r.diagnostics), []⟩) := by
  have heffect : s.effect (.readDiagnostics name) = .ok {
      session := s
      answer := .report r.hadError r.diagnostics } := by
    rw [effect, onReporter_eq hn, setReporter_reporterAt, reporterAt_of_getElem? hr]
  rw [step_of_effect heffect]

/-- What the reporter `n` of a session knows, going by its log. -/
structure HoldsLog (s : Session) (n : Nat) (log : Log) : Prop where
  held : ∃ r, s.reporters[n]? = some r ∧ r.diagnostics = log.held ∧
    (r.hadError = true ↔ log.held ≠ [])
  /-- Reading the diagnostics shows just these and does nothing. -/
  read : ∀ name, s.reporterNumbers.find? name = some n → s.step (.readDiagnostics name) =
    (s, ⟨.ok (.report (decide (log.held ≠ [])) log.held), []⟩)

/-- What scanners and the reporter `n` of a session have to do with each other. -/
structure ScannersReport (s : Session) (n : Nat) : Prop where
  /-- A scanner that reads its source reports to its own reporter what it finds, in order, and keeps
  it too. It does so once. -/
  found : ∀ name w a, s.scanners.find? name = some w → s.Offers name a → a.reads = true →
    ∃ found y, (found = if w.scanner.finished then [] else (scan w.scanner.remaining).diagnostics) ∧
      (s.requestsTo n a = if w.reporter = some n then found.map .report else []) ∧
      (s.step a).1.scanners.find? name = some { w with scanner := y } ∧
      y.errors = w.scanner.errors ++ found ∧ y.finished = true
  /-- What is done to reporters and to other scanners changes nothing of a scanner. -/
  kept : ∀ name a, a.scanner? ≠ some name → a.newScanner? ≠ some name →
    (s.step a).1.scanners.find? name = s.scanners.find? name

theorem hadError_iff : r.hadError = true ↔ r.diagnostics ≠ [] := by
  simp [Reporter.hadError]

theorem holdsLog_of_reporter {log : Log} (h : s.reporters[n]? = some r)
    (hheld : r.diagnostics = log.held) : s.HoldsLog n log where
  held := ⟨r, h, hheld, hheld ▸ hadError_iff⟩
  read name hn := by
    have hadError : r.hadError = decide (log.held ≠ []) := by
      rw [Bool.eq_iff_iff, hadError_iff, hheld, decide_eq_true_iff]
    rw [step_readDiagnostics hn h, hadError, hheld]

theorem scannersReport (steps : List Step) (n : Nat) : (after {} steps).ScannersReport n where
  found name w a hw ha hreads := by
    have hon := step_on hw ha
    have hcomplete := Step.complete_act (proper_after steps hw).unread_or_complete hreads
    refine ⟨a.found w.scanner, _, ?_, requestsTo_of_offers hw ha n, hon.scanner, ?_,
      hcomplete.finished⟩
    · rw [Step.found, if_pos hreads]
      obtain h | ⟨k, h⟩ := proper_after steps hw
      · rw [h.finished, h.scanAll_eq.2]
        rfl
      · rw [h.finished, h.scanAll_eq]
        rfl
    · rw [Step.act_of_reads hreads, Step.found, if_pos hreads, Scanner.scanAll]
      split
      · exact (List.append_nil _).symm
      · rfl
  kept name a hname hnew := (carries _ a).scanner name hname hnew

/-- A reporter is made in some session, and `steps` are whatever comes after. -/
theorem reporter_log (before steps : List Step) (name : Text) (level : Level) (stream : Stream) :
    let s := after {} (before ++ [.newReporter name level stream])
    let n := (after {} before).reporters.length
    let log : Log := s.collect (requestsTo n) steps
    (s.after steps).HoldsLog n log ∧
      writtenBy (.reporter (some n)) (s.transcript steps) =
        Output.linesTo stream ((log.shown level).map Diagnostic.display) ∧
      (s.transcript steps).map Entry.writing = (s.replies steps).flatMap Reply.output ∧
      (s.after steps).ScannersReport n := by
  intro s n log
  have hnew : s.reporters[n]? = some { level, stream } := by
    have hs : s = ((after {} before).step (.newReporter name level stream)).1 := by
      simp only [s, after, List.foldl_append, List.foldl_cons, List.foldl_nil]
    rw [hs]
    exact List.getElem?_concat_length
  obtain ⟨hreporter, hwritten⟩ := reporter_after hnew steps
  refine ⟨?_, ?_, map_writing_transcript s steps, ?_⟩
  · refine holdsLog_of_reporter hreporter ?_
    rw [Reporter.handled_eq]
  · rw [hwritten, Reporter.written_eq]
  · have hafter : s.after steps = after {} (before ++ [.newReporter name level stream] ++ steps) :=
      List.foldl_append.symm
    rw [hafter]
    exact scannersReport _ n

/-- A scanner reports while the level is silent, and what it found is written when all is printed.
The reporter forgets it, but the scanner does not report it again. -/
theorem reporter_log_silenced :
    let stream : Stream := .memory ['m']
    let s := after {}
      ([.newSink ['k'] (.console stream)] ++ [.newReporter ['r'] Level.error stream])
    let first : Diagnostic := ⟨7, ['a'], none⟩
    let found : Diagnostic := Fault.diagnostic (.unexpectedCharacter '@') 1
    let last : Diagnostic := Fault.diagnostic .unterminatedString 1
    let steps : List Step := [.newScanner ['x'] ['@'] (some ['r']), .report ['r'] first,
      .setLevel ['r'] Level.silent, .run ['x'] (some ['k']), .printErrors ['r'], .clear ['r'],
      .scan ['x'], .setLevel ['r'] 3, .runSource ['"'] (some ['k']) (some ['r'])]
    (s.after steps).HoldsLog 0 [.report first, .setLevel Level.silent, .report found, .print,
        .clear, .setLevel 3, .report last] ∧
      (s.after steps).step (.readDiagnostics ['r']) =
        (s.after steps, ⟨.ok (.report true [last]), []⟩) ∧
      writtenBy (.reporter (some 0)) (s.transcript steps) =
        Output.linesTo stream ([first, first, found, last].map Diagnostic.display) := by
  intro stream s first found last steps
  obtain ⟨hholds, hwritten, -, -⟩ :=
    reporter_log [.newSink ['k'] (.console stream)] steps ['r'] Level.error stream
  have hlog : s.collect (requestsTo 0) steps = [.report first, .setLevel Level.silent,
      .report found, .print, .clear, .setLevel 3, .report last] := by decide +kernel
  have hholds : (s.after steps).HoldsLog 0 [.report first, .setLevel Level.silent, .report found,
      .print, .clear, .setLevel 3, .report last] := by
    rw [← hlog]
    exact hholds
  have hname : (s.after steps).reporterNumbers.find? ['r'] = some 0 := by decide +kernel
  have hshown : Log.shown Level.error (s.collect (requestsTo 0) steps) =
      [first, first, found, last] := by
    rw [hlog]
    decide +kernel
  refine ⟨hholds, hholds.read ['r'] hname, ?_⟩
  rw [← hshown]
  exact hwritten

end Session

end LoxLex
