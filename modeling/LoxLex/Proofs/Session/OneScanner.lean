import LoxLex.Session.Basic

/-!
# Steps on one scanner

What a session does with a scanner hangs on that scanner alone: `Step.act` is what a step makes of
it and `Step.result` what the step answers. `step_on` says all that such a step does to a session,
and `after_on` follows a scanner through any number of them.
-/

namespace LoxLex

namespace Step

/-- The scanner that a step is on. -/
def scanner? : Step → Option Text
  | scanTokens name | scan name | state name | peek name | peekNext name | advance name
  | accept name _ | isAtEnd name | run name _ => some name
  | _ => none

/-- The sink that a step on a scanner names. -/
def sink? : Step → Option Text
  | run _ sink => sink
  | _ => none

/-- Whether the step makes its scanner read its source. -/
def reads : Step → Bool
  | scanTokens _ | scan _ | run _ _ => true
  | _ => false

def act (x : Scanner) : Step → Scanner
  | advance _ => (x.advance?.map Prod.snd).getD x
  | accept _ expected => (x.accept expected).2
  | scanTokens _ | scan _ | run _ _ => x.scanAll.1
  | _ => x

def result (x : Scanner) : Step → Except StepError Answer
  | scanTokens _ => .ok (.tokens x.scanAll.1.tokens)
  | scan _ | run _ _ => .ok (.scan x.scanAll.1.result)
  | state _ => .ok (.state x)
  | peek _ => .ok (.character x.peek)
  | peekNext _ => .ok (.character x.peekNext)
  | advance _ =>
    match x.advance? with
    | some (c, _) => .ok (.character c)
    | none => .error .endOfSource
  | accept _ expected => .ok (.truth (x.accept expected).1)
  | isAtEnd _ => .ok (.truth x.isAtEnd)
  | _ => .ok .done

/-- The faults that the step finds in the source of its scanner. -/
def found (x : Scanner) (a : Step) : List Diagnostic := if a.reads then x.scanAll.2 else []

end Step

theorem Reporter.report_nil (r : Reporter) : r.report [] = (r, []) := by
  simp [report, write, Output.linesTo]

namespace Session

/-- The session once the steps are done. -/
def after (s : Session) (steps : List Step) : Session := steps.foldl (fun s a => (s.step a).1) s

/-- The step is on the scanner `name`, and the sink that it names is there. -/
def Offers (s : Session) (name : Text) (a : Step) : Prop :=
  a.scanner? = some name ∧ ∀ sink ∈ a.sink?, (s.sinks.find? sink).isSome = true

/-- What the sink of a step writes that is handed the tokens of the scanner `x`. -/
def delivered (s : Session) (x : Scanner) : Step → Output
  | .run _ sink =>
    match s.sinkNamed sink with
    | .ok k => (k.receive x.tokens).2
    | .error _ => []
  | _ => []

variable {s : Session} {name : Text} {w : Watched} {a : Step}

/-! ## Parts of a session -/

@[simp] theorem scanners_setReporter (s : Session) (n : Option Nat) (r : Reporter) :
    (s.setReporter n r).scanners = s.scanners := by
  cases n <;> rfl

@[simp] theorem sinks_setReporter (s : Session) (n : Option Nat) (r : Reporter) :
    (s.setReporter n r).sinks = s.sinks := by
  cases n <;> rfl

@[simp] theorem scanners_setSink (s : Session) (n : Option Text) (k : Sink) :
    (s.setSink n k).scanners = s.scanners := by
  cases n <;> rfl

@[simp] theorem reporters_setSink (s : Session) (n : Option Text) (k : Sink) :
    (s.setSink n k).reporters = s.reporters := by
  cases n <;> rfl

theorem find?_setScanner (s : Session) (name : Text) (w : Watched) :
    (s.setScanner name w).scanners.find? name = some w := by
  rw [setScanner, Registry.find?_put, if_pos rfl]

theorem reporters_setReporter_setScanner (s : Session) (name : Text) (w : Watched)
    (n : Option Nat) (r : Reporter) :
    ((s.setScanner name w).setReporter n r).reporters = (s.setReporter n r).reporters := by
  cases n <;> rfl

/-- A sink that is put in the place of another one takes none away. -/
theorem isSome_find?_setSink {sink : Text} (h : (s.sinks.find? sink).isSome = true)
    (n : Option Text) (k : Sink) : ((s.setSink n k).sinks.find? sink).isSome = true := by
  cases n with
  | none => exact h
  | some n =>
    rw [setSink, Registry.find?_put]
    split
    · rfl
    · exact h

theorem setReporter_reporterAt (s : Session) (n : Option Nat) :
    s.setReporter n (s.reporterAt n) = s := by
  cases n with
  | none => rfl
  | some n =>
    have hset : s.reporters.set n (s.reporterAt (some n)) = s.reporters := by
      by_cases h : n < s.reporters.length
      · simp [reporterAt, h]
      · exact List.set_eq_of_length_le (by omega)
    rw [setReporter, hset]

theorem find_eq_ok {α : Type} {r : Registry α} {x : α} (h : r.find? name = some x) :
    find r name = .ok x := by
  rw [find, h]

theorem exists_sinkNamed {sink : Option Text}
    (h : ∀ k ∈ sink, (s.sinks.find? k).isSome = true) : ∃ k, s.sinkNamed sink = .ok k := by
  cases sink with
  | none => exact ⟨_, rfl⟩
  | some n =>
    obtain ⟨k, hk⟩ := Option.isSome_iff_exists.mp (h n rfl)
    exact ⟨k, find_eq_ok hk⟩

/-! ## One step -/

/-- All that a step on the scanner `w` does, which has the name `name`. -/
structure StepOn (s : Session) (name : Text) (w : Watched) (a : Step) : Prop where
  scanner : (s.step a).1.scanners.find? name = some { w with scanner := a.act w.scanner }
  result : (s.step a).2.result = a.result w.scanner
  reporters : (s.step a).1.reporters = (s.setReporter w.reporter
    ((s.reporterAt w.reporter).report (a.found w.scanner)).1).reporters
  output : (s.step a).2.output = ((s.reporterAt w.reporter).report (a.found w.scanner)).2 ++
    s.delivered (a.act w.scanner) a
  sinks : ∀ sink, (s.sinks.find? sink).isSome = true →
    ((s.step a).1.sinks.find? sink).isSome = true

theorem step_of_effect {e : Effect} (h : s.effect a = .ok e) :
    s.step a = (e.session, ⟨.ok e.answer, e.output⟩) := by
  rw [step, h]

theorem step_of_error {e : StepError} (h : s.effect a = .error e) : s.step a = (s, ⟨.error e, []⟩) := by
  rw [step, h]

theorem onScanner_eq_ok (hw : s.scanners.find? name = some w)
    {f : Scanner → Except StepError (Scanner × Answer)} {x : Scanner} {answer : Answer}
    (hf : f w.scanner = .ok (x, answer)) :
    s.onScanner name f = .ok { session := s.setScanner name { w with scanner := x }, answer } := by
  simp only [onScanner, find_eq_ok hw]
  show (f w.scanner >>= _) = _
  rw [hf]
  rfl

theorem onScanner_eq_error (hw : s.scanners.find? name = some w)
    {f : Scanner → Except StepError (Scanner × Answer)} {e : StepError}
    (hf : f w.scanner = .error e) : s.onScanner name f = .error e := by
  simp only [onScanner, find_eq_ok hw]
  show (f w.scanner >>= _) = _
  rw [hf]
  rfl

theorem onFinished_eq (hw : s.scanners.find? name = some w) (f : Scanner → Answer) :
    s.onFinished name f = .ok {
      session := (s.setScanner name { w with scanner := w.scanner.scanAll.1 }).setReporter
        w.reporter ((s.reporterAt w.reporter).report w.scanner.scanAll.2).1
      answer := f w.scanner.scanAll.1
      output := ((s.reporterAt w.reporter).report w.scanner.scanAll.2).2 } := by
  simp only [onFinished, find_eq_ok hw]
  rfl

theorem runScanner_eq (hw : s.scanners.find? name = some w) {sinkName : Option Text} {k : Sink}
    (hk : s.sinkNamed sinkName = .ok k) :
    s.runScanner name sinkName = .ok {
      session := ((s.setScanner name { w with scanner := w.scanner.scanAll.1 }).setReporter
        w.reporter ((s.reporterAt w.reporter).report w.scanner.scanAll.2).1).setSink sinkName
          (k.receive w.scanner.scanAll.1.tokens).1
      answer := .scan w.scanner.scanAll.1.result
      output := ((s.reporterAt w.reporter).report w.scanner.scanAll.2).2 ++
        (k.receive w.scanner.scanAll.1.tokens).2 } := by
  simp only [runScanner, find_eq_ok hw, hk]
  rfl

theorem step_advance_of_none (hw : s.scanners.find? name = some w)
    (hx : w.scanner.advance? = none) :
    s.step (.advance name) = (s, ⟨.error .endOfSource, []⟩) := by
  refine step_of_error ?_
  rw [effect]
  exact onScanner_eq_error hw (by rw [hx])

/-- A step that reads nothing leaves everything but its scanner as it is. -/
theorem StepOn.of_not_reads (hreads : a.reads = false)
    (hscanner : (s.step a).1.scanners.find? name = some { w with scanner := a.act w.scanner })
    (hresult : (s.step a).2.result = a.result w.scanner)
    (hreporters : (s.step a).1.reporters = s.reporters) (houtput : (s.step a).2.output = [])
    (hsinks : (s.step a).1.sinks = s.sinks) : s.StepOn name w a := by
  have hfound : a.found w.scanner = [] := by simp [Step.found, hreads]
  have hdelivered : s.delivered (a.act w.scanner) a = [] := by
    cases a with
    | run _ _ => cases hreads
    | _ => rfl
  refine ⟨hscanner, hresult, ?_, ?_, fun sink h => ?_⟩
  · rw [hreporters, hfound, Reporter.report_nil, setReporter_reporterAt]
  · rw [houtput, hfound, Reporter.report_nil, hdelivered]
    rfl
  · rwa [hsinks]

theorem StepOn.of_effect (hreads : a.reads = false) {answer : Answer}
    (h : s.effect a = .ok
      { session := s.setScanner name { w with scanner := a.act w.scanner }, answer })
    (hresult : a.result w.scanner = .ok answer) : s.StepOn name w a := by
  have hstep := step_of_effect h
  refine .of_not_reads hreads ?_ ?_ ?_ ?_ ?_ <;> rw [hstep]
  · exact find?_setScanner ..
  · exact hresult.symm
  · rfl
  · rfl

/-- A step that reads also reports, and may hand tokens to a sink. -/
theorem StepOn.of_effect_reads (hreads : a.reads = true)
    (hact : a.act w.scanner = w.scanner.scanAll.1) {answer : Answer} (sinkName : Option Text)
    (k : Sink)
    (h : s.effect a = .ok {
      session := ((s.setScanner name { w with scanner := w.scanner.scanAll.1 }).setReporter
        w.reporter ((s.reporterAt w.reporter).report w.scanner.scanAll.2).1).setSink sinkName k
      answer
      output := ((s.reporterAt w.reporter).report w.scanner.scanAll.2).2 ++
        s.delivered w.scanner.scanAll.1 a })
    (hresult : a.result w.scanner = .ok answer) : s.StepOn name w a := by
  have hstep := step_of_effect h
  have hfound : a.found w.scanner = w.scanner.scanAll.2 := by simp [Step.found, hreads]
  refine ⟨?_, ?_, ?_, ?_, fun sink hsink => ?_⟩ <;> rw [hstep]
  · rw [scanners_setSink, scanners_setReporter, find?_setScanner, hact]
  · exact hresult.symm
  · rw [reporters_setSink, reporters_setReporter_setScanner, hfound]
  · rw [hfound, hact]
  · refine isSome_find?_setSink ?_ sinkName k
    rw [sinks_setReporter]
    exact hsink

theorem step_on (hw : s.scanners.find? name = some w) (ha : s.Offers name a) :
    s.StepOn name w a := by
  obtain ⟨hname, hsink⟩ := ha
  cases a with
  | state n | peek n | peekNext n | isAtEnd n | accept n expected =>
    cases hname
    refine .of_effect rfl ?_ rfl
    rw [effect]
    exact onScanner_eq_ok hw rfl
  | advance n =>
    cases hname
    cases hx : w.scanner.advance? with
    | some next =>
      have hact : Step.act w.scanner (.advance name) = next.2 := by
        rw [Step.act, hx]
        rfl
      have hresult : Step.result w.scanner (.advance name) = .ok (.character next.1) := by
        rw [Step.result, hx]
      refine .of_effect rfl ?_ hresult
      rw [effect, hact]
      exact onScanner_eq_ok hw (by rw [hx])
    | none =>
      have hstep := step_advance_of_none hw hx
      have hact : Step.act w.scanner (.advance name) = w.scanner := by
        rw [Step.act, hx]
        rfl
      have hresult : Step.result w.scanner (.advance name) = .error .endOfSource := by
        rw [Step.result, hx]
      refine .of_not_reads rfl ?_ ?_ ?_ ?_ ?_ <;> rw [hstep]
      · rw [hact, hw]
      · exact hresult.symm
  | scanTokens n | scan n =>
    cases hname
    -- the sink does not matter here: without a name it goes nowhere
    refine .of_effect_reads rfl rfl none .counter ?_ rfl
    rw [effect, onFinished_eq hw]
    show _ = Except.ok (Effect.mk _ _ (_ ++ []))
    rw [List.append_nil]
    rfl
  | run n sinkName =>
    cases hname
    obtain ⟨k, hk⟩ : ∃ k, s.sinkNamed sinkName = .ok k := exists_sinkNamed hsink
    refine .of_effect_reads rfl rfl sinkName (k.receive w.scanner.scanAll.1.tokens).1 ?_ rfl
    rw [effect, runScanner_eq hw hk, delivered, hk]
  | _ => cases hname

/-! ## Any number of steps -/

theorem Offers.of_sinks {s' : Session}
    (h : ∀ sink, (s.sinks.find? sink).isSome = true → (s'.sinks.find? sink).isSome = true)
    (ha : s.Offers name a) : s'.Offers name a :=
  ⟨ha.1, fun sink hsink => h sink (ha.2 sink hsink)⟩

theorem after_on {steps : List Step} (hw : s.scanners.find? name = some w)
    (hsteps : ∀ a ∈ steps, s.Offers name a) :
    (s.after steps).scanners.find? name =
        some { w with scanner := steps.foldl Step.act w.scanner } ∧
      ∀ a, s.Offers name a → (s.after steps).Offers name a := by
  induction steps generalizing s w with
  | nil => exact ⟨hw, fun _ ha => ha⟩
  | cons b steps ih =>
    have hb := step_on hw (hsteps b (List.mem_cons_self ..))
    have hoffers {a : Step} (ha : s.Offers name a) : (s.step b).1.Offers name a :=
      ha.of_sinks hb.sinks
    obtain ⟨hscanner, hlater⟩ := ih hb.scanner fun a ha => hoffers (hsteps a (.tail _ ha))
    exact ⟨hscanner, fun a ha => hlater a (hoffers ha)⟩

end Session

end LoxLex
