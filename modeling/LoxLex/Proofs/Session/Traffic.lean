import LoxLex.Proofs.Reporter.Log
import LoxLex.Proofs.Scan.Placed
import LoxLex.Proofs.Session.OneScanner

/-!
# Traffic of a session

A step asks things of at most one reporter and hands tokens to at most one sink: its `Traffic`. That
is all a step can do to the reporters and sinks of a session, and the only source of what it writes
(`carries`).
-/

namespace LoxLex

namespace Step

def newScanner? : Step → Option Text
  | newScanner name _ _ => some name
  | _ => none

def newSink? : Step → Option Text
  | newSink name _ => some name
  | _ => none

end Step

namespace Session

structure Traffic where
  /-- The number of the reporter; a scanner without one reports to a silent one of its own. -/
  reporter : Option Nat := none
  requests : Log := []
  /-- The name of the sink; a run without one writes to a console. -/
  sink : Option Text := none
  tokens : List Token := []

def trafficTo (s : Session) (reporter : Text) (requests : Log) : Traffic :=
  match s.reporterNumbers.find? reporter with
  | some n => { reporter := some n, requests }
  | none => {}

/-- What the step brings to a reporter and to a sink. A step that fails brings nothing. -/
def traffic (s : Session) : Step → Traffic
  | .report name d => s.trafficTo name [.report d]
  | .readDiagnostics name => s.trafficTo name []
  | .clear name => s.trafficTo name [.clear]
  | .setLevel name level => s.trafficTo name [.setLevel level]
  | .printErrors name => s.trafficTo name [.print]
  | .scanTokens name | .scan name =>
    match s.scanners.find? name with
    | some w => { reporter := w.reporter, requests := w.scanner.scanAll.2.map .report }
    | none => {}
  | .run name sink =>
    match s.scanners.find? name, s.sinkNamed sink with
    | some w, .ok _ => {
        reporter := w.reporter
        requests := w.scanner.scanAll.2.map .report
        sink
        tokens := w.scanner.scanAll.1.tokens }
    | _, _ => {}
  | .runSource source sink reporter =>
    match s.reporterNumber reporter, s.sinkNamed sink with
    | .ok number, .ok _ => {
        reporter := number
        requests := (scan source).diagnostics.map .report
        sink
        tokens := (scan source).tokens }
    | _, _ => {}
  | .receive name draft =>
    match s.sinks.find? name, draft.build with
    | some _, .ok t => { sink := some name, tokens := [t] }
    | _, _ => {}
  | _ => {}

/-- What the step asks of the reporter `n`. -/
def requestsTo (n : Nat) (s : Session) (a : Step) : Log :=
  if (s.traffic a).reporter = some n then (s.traffic a).requests else []

/-- The tokens that the step hands to the sink. -/
def handedTo (sink : Option Text) (s : Session) (a : Step) : List Token :=
  if (s.traffic a).sink = sink then (s.traffic a).tokens else []

/-- The sink of a name; a console on the standard output stands in for none. -/
def sinkAt (s : Session) (name : Option Text) : Sink :=
  (name.bind s.sinks.find?).getD (.console .standardOutput)

/-- All that a step does to what it is not on, to the reporters and to the sinks. -/
structure Carries (s : Session) (a : Step) : Prop where
  scanner : ∀ name, a.scanner? ≠ some name → a.newScanner? ≠ some name →
    (s.step a).1.scanners.find? name = s.scanners.find? name
  reporter : ∀ (n : Nat) (r : Reporter), s.reporters[n]? = some r →
    (s.step a).1.reporters[n]? = some (r.handled (s.requestsTo n a))
  sink : ∀ name k, a.newSink? ≠ some name → s.sinks.find? name = some k →
    (s.step a).1.sinks.find? name = some (k.receive (s.handedTo (some name) a)).1
  output : (s.step a).2.output =
    (s.reporterAt (s.traffic a).reporter).written (s.traffic a).requests ++
      ((s.sinkAt (s.traffic a).sink).receive (s.traffic a).tokens).2

variable {s : Session} {a : Step} {name : Text} {t : Traffic}

theorem receive_nil (k : Sink) : k.receive [] = (k, []) := by
  cases k <;> rfl

theorem reporterAt_of_getElem? {n : Nat} {r : Reporter} (h : s.reporters[n]? = some r) :
    s.reporterAt (some n) = r := by
  simp [reporterAt, h]

theorem sinkAt_of_find? {k : Sink} (h : s.sinks.find? name = some k) :
    s.sinkAt (some name) = k := by
  simp [sinkAt, h]

theorem find?_of_sinkNamed {k : Sink} (h : s.sinkNamed (some name) = .ok k) :
    s.sinks.find? name = some k := by
  rw [sinkNamed, find] at h
  split at h
  · next hk =>
    cases h
    exact hk
  · cases h

theorem sinkAt_of_sinkNamed {sink : Option Text} {k : Sink} (h : s.sinkNamed sink = .ok k) :
    s.sinkAt sink = k := by
  cases sink with
  | none =>
    cases h
    rfl
  | some n => exact sinkAt_of_find? (find?_of_sinkNamed h)

theorem requestsTo_eq_nil (ht : s.traffic a = {}) (n : Nat) : s.requestsTo n a = [] := by
  rw [requestsTo, ht, if_neg nofun]

theorem handedTo_eq_nil (ht : s.traffic a = {}) (name : Text) : s.handedTo (some name) a = [] := by
  rw [handedTo, ht, if_neg nofun]

theorem traffic_run {w : Watched} (hw : s.scanners.find? name = some w) {sink : Option Text}
    {k : Sink} (hk : s.sinkNamed sink = .ok k) :
    s.traffic (.run name sink) = {
      reporter := w.reporter
      requests := w.scanner.scanAll.2.map .report
      sink
      tokens := w.scanner.scanAll.1.tokens } := by
  rw [traffic, hw, hk]

theorem traffic_runSource {source : Text} {sink reporter : Option Text} {number : Option Nat}
    (hnumber : s.reporterNumber reporter = .ok number) {k : Sink} (hk : s.sinkNamed sink = .ok k) :
    s.traffic (.runSource source sink reporter) = {
      reporter := number
      requests := (scan source).diagnostics.map .report
      sink
      tokens := (scan source).tokens } := by
  rw [traffic, hnumber, hk]

theorem traffic_receive {draft : Token.Draft} {k : Sink} {token : Token}
    (hk : s.sinkNamed (some name) = .ok k) (ht : draft.build = .ok token) :
    s.traffic (.receive name draft) = { sink := some name, tokens := [token] } := by
  rw [traffic, find?_of_sinkNamed hk, ht]

theorem offers_of_sink?_eq_none (ha : a.scanner? = some name) (h : a.sink? = none) :
    s.Offers name a := ⟨ha, by simp [h]⟩

theorem Offers.sinkNamed {sink : Option Text} (h : s.Offers name (.run name sink)) :
    ∃ k, s.sinkNamed sink = .ok k := exists_sinkNamed h.2

/-- What a step on a scanner asks of a reporter: to take the faults that it finds, if the scanner
reports to it. -/
theorem requestsTo_of_offers {w : Watched} (hw : s.scanners.find? name = some w)
    (ha : s.Offers name a) (n : Nat) :
    s.requestsTo n a = if w.reporter = some n then (a.found w.scanner).map .report else [] := by
  have hname := ha.1
  cases a with
  | scanTokens _ | scan _ =>
    cases hname
    simp [requestsTo, traffic, hw, Step.found, Step.reads]
  | run _ sink =>
    cases hname
    obtain ⟨k, hk⟩ := ha.sinkNamed
    simp [requestsTo, traffic_run hw hk, Step.found, Step.reads]
  | state _ | peek _ | peekNext _ | advance _ | accept _ _ | isAtEnd _ =>
    simp [requestsTo, traffic, Step.found, Step.reads]
  | _ => cases hname

/-! ## One step -/

theorem Carries.of_traffic (s' : Session) (ht : s.traffic a = t) {e : Effect}
    (h : s.effect a = .ok e)
    (hsession : e.session = (s'.setReporter t.reporter
      ((s.reporterAt t.reporter).handled t.requests)).setSink t.sink
        ((s.sinkAt t.sink).receive t.tokens).1)
    (houtput : e.output = (s.reporterAt t.reporter).written t.requests ++
      ((s.sinkAt t.sink).receive t.tokens).2)
    (hreporters : s'.reporters = s.reporters) (hsinks : s'.sinks = s.sinks)
    (hscanners : ∀ name, a.scanner? ≠ some name → a.newScanner? ≠ some name →
      s'.scanners.find? name = s.scanners.find? name) : s.Carries a := by
  subst ht
  have hstep := step_of_effect h
  rw [hsession, houtput] at hstep
  -- nothing but one reporter and one sink is put anew, and these may be the ones asked about
  refine ⟨fun name hname hnew => ?_, fun n r hr => ?_, fun name k _ hk => ?_, ?_⟩ <;> rw [hstep]
  · rw [scanners_setSink, scanners_setReporter, hscanners name hname hnew]
  · rw [reporters_setSink, requestsTo]
    cases hm : (s.traffic a).reporter with
    | none => rw [if_neg nofun]; exact hreporters ▸ hr
    | some m =>
      show (s'.reporters.set m _)[n]? = _
      rw [hreporters]
      by_cases hmn : m = n
      · subst hmn
        rw [if_pos rfl, reporterAt_of_getElem? hr, List.getElem?_set_self', hr]
        rfl
      · rw [if_neg (by simpa using hmn), List.getElem?_set_ne hmn, hr]
        rfl
  · rw [handedTo]
    cases hm : (s.traffic a).sink with
    | none =>
      rw [if_neg nofun, receive_nil]
      show ((s'.setReporter _ _).sinks.find? name) = _
      rw [sinks_setReporter, hsinks, hk]
    | some m =>
      rw [setSink, Registry.find?_put, sinks_setReporter, hsinks]
      by_cases hmn : m = name
      · subst hmn
        rw [if_pos rfl, if_pos rfl, sinkAt_of_find? hk]
      · rw [if_neg (Ne.symm hmn), if_neg (by simpa using hmn), hk, receive_nil]

/-- A step that brings nothing and leaves the reporters and the sinks as they are. -/
theorem Carries.of_idle (ht : s.traffic a = {}) {e : Effect} (h : s.effect a = .ok e)
    (houtput : e.output = []) (hreporters : e.session.reporters = s.reporters)
    (hsinks : e.session.sinks = s.sinks)
    (hscanners : ∀ name, a.scanner? ≠ some name → a.newScanner? ≠ some name →
      e.session.scanners.find? name = s.scanners.find? name) : s.Carries a :=
  .of_traffic _ ht h rfl houtput hreporters hsinks hscanners

theorem Carries.of_error (ht : s.traffic a = {}) {e : StepError} (h : s.effect a = .error e) :
    s.Carries a := by
  have hstep := step_of_error h
  refine ⟨fun _ _ _ => ?_, fun n r hr => ?_, fun name k _ hk => ?_, ?_⟩ <;> rw [hstep]
  · rw [requestsTo_eq_nil ht]
    exact hr
  · rw [handedTo_eq_nil ht, receive_nil]
    exact hk
  · rw [ht]
    rfl

theorem effect_of_unknown (ha : a.scanner? = some name) (h : s.scanners.find? name = none) :
    s.effect a = .error (.unknownName name) := by
  cases a with
  | state _ | peek _ | peekNext _ | advance _ | accept _ _ | isAtEnd _ =>
    cases ha
    rw [effect, onScanner, find, h]
    rfl
  | scanTokens _ | scan _ =>
    cases ha
    rw [effect, onFinished, find, h]
    rfl
  | run _ _ =>
    cases ha
    rw [effect, runScanner, find, h]
    rfl
  | _ => cases ha

theorem Carries.of_unknown (ha : a.scanner? = some name) (h : s.scanners.find? name = none) :
    s.Carries a := by
  refine .of_error ?_ (effect_of_unknown ha h)
  cases a with
  | scanTokens _ | scan _ | run _ _ =>
    cases ha
    rw [traffic, h]
  | state _ | peek _ | peekNext _ | advance _ | accept _ _ | isAtEnd _ => rfl
  | _ => cases ha

theorem find?_setScanner_of_ne {other : Text} (h : name ≠ other) (w : Watched) :
    (s.setScanner name w).scanners.find? other = s.scanners.find? other := by
  rw [setScanner, Registry.find?_put, if_neg (Ne.symm h)]

theorem onReporter_eq {n : Nat} (hn : s.reporterNumbers.find? name = some n)
    (f : Reporter → Reporter × Answer × Output) :
    s.onReporter name f = .ok {
      session := s.setReporter (some n) (f (s.reporterAt (some n))).1
      answer := (f (s.reporterAt (some n))).2.1
      output := (f (s.reporterAt (some n))).2.2 } := by
  simp only [onReporter, find_eq_ok hn]
  rfl

theorem runSource_eq {source : Text} {sink reporter : Option Text} {number : Option Nat} {k : Sink}
    (hnumber : s.reporterNumber reporter = .ok number) (hk : s.sinkNamed sink = .ok k) :
    s.runSource source sink reporter = .ok {
      session := (s.setReporter number
        ((s.reporterAt number).report (scan source).diagnostics).1).setSink sink
          (k.receive (scan source).tokens).1
      answer := .scan (scan source)
      output := ((s.reporterAt number).report (scan source).diagnostics).2 ++
        (k.receive (scan source).tokens).2 } := by
  have hresult := result_scanAll_ofSource source
  simp only [runSource, hnumber, hk]
  rw [← hresult]
  rfl

theorem carries_onReporter {f : Reporter → Reporter × Answer × Output} {requests : Log}
    (heffect : s.effect a = s.onReporter name f)
    (htraffic : s.traffic a = s.trafficTo name requests)
    (hf : ∀ r, (f r).1 = r.handled requests ∧ (f r).2.2 = r.written requests) : s.Carries a := by
  cases hn : s.reporterNumbers.find? name with
  | none =>
    refine .of_error (e := .unknownName name) ?_ ?_
    · rw [htraffic, trafficTo, hn]
    · rw [heffect, onReporter, find, hn]
      rfl
  | some n =>
    rw [trafficTo, hn] at htraffic
    rw [onReporter_eq hn, (hf _).1, (hf _).2] at heffect
    refine .of_traffic s htraffic heffect rfl ?_ rfl rfl fun _ _ _ => rfl
    rw [receive_nil, List.append_nil]

theorem carries_onScanner (ha : a.scanner? = some name) (ht : s.traffic a = {})
    {f : Scanner → Except StepError (Scanner × Answer)}
    (heffect : s.effect a = s.onScanner name f) :
    s.Carries a := by
  cases hw : s.scanners.find? name with
  | none => exact .of_unknown ha hw
  | some w =>
    cases hf : f w.scanner with
    | error e => exact .of_error ht (heffect.trans (onScanner_eq_error hw hf))
    | ok next =>
      rw [onScanner_eq_ok hw hf] at heffect
      refine .of_idle ht heffect rfl rfl rfl fun other hother _ => ?_
      exact find?_setScanner_of_ne (fun h => hother (by rw [ha, h])) _

theorem carries_onFinished (ha : a.scanner? = some name) {f : Scanner → Answer}
    (heffect : s.effect a = s.onFinished name f)
    (htraffic : s.traffic a = match s.scanners.find? name with
      | some w => { reporter := w.reporter, requests := w.scanner.scanAll.2.map .report }
      | none => {}) : s.Carries a := by
  cases hw : s.scanners.find? name with
  | none => exact .of_unknown ha hw
  | some w =>
    rw [hw] at htraffic
    rw [onFinished_eq hw, ← Reporter.handled_reports, ← Reporter.written_reports] at heffect
    refine .of_traffic _ htraffic heffect rfl ?_ rfl rfl fun other hother _ => ?_
    · rw [receive_nil, List.append_nil]
    · exact find?_setScanner_of_ne (fun h => hother (by rw [ha, h])) _

theorem carries_run (s : Session) (name : Text) (sink : Option Text) :
    s.Carries (.run name sink) := by
  cases hw : s.scanners.find? name with
  | none => exact .of_unknown rfl hw
  | some w =>
    cases hk : s.sinkNamed sink with
    | error e =>
      refine .of_error (e := e) ?_ ?_
      · rw [traffic, hw, hk]
      · rw [effect, runScanner, find_eq_ok hw, hk]
        rfl
    | ok k =>
      have heffect := runScanner_eq hw hk
      rw [← Reporter.handled_reports, ← Reporter.written_reports,
        ← sinkAt_of_sinkNamed hk] at heffect
      refine .of_traffic _ (traffic_run hw hk) heffect rfl rfl rfl rfl fun other hother _ => ?_
      exact find?_setScanner_of_ne (fun h => hother (by rw [h]; rfl)) _

theorem carries_runSource (s : Session) (source : Text) (sink reporter : Option Text) :
    s.Carries (.runSource source sink reporter) := by
  cases hn : s.reporterNumber reporter with
  | error e =>
    refine .of_error (e := e) ?_ ?_
    · rw [traffic, hn]
    · rw [effect, runSource, hn]
      rfl
  | ok number =>
    cases hk : s.sinkNamed sink with
    | error e =>
      refine .of_error (e := e) ?_ ?_
      · rw [traffic, hn, hk]
      · rw [effect, runSource, hn, hk]
        rfl
    | ok k =>
      have heffect : s.effect (.runSource source sink reporter) = _ := runSource_eq hn hk
      rw [← Reporter.handled_reports, ← Reporter.written_reports,
        ← sinkAt_of_sinkNamed hk] at heffect
      exact .of_traffic _ (traffic_runSource hn hk) heffect rfl rfl rfl rfl fun _ _ _ => rfl

theorem carries_receive (s : Session) (name : Text) (draft : Token.Draft) :
    s.Carries (.receive name draft) := by
  cases hk : s.sinks.find? name with
  | none =>
    refine .of_error (e := .unknownName name) ?_ ?_
    · rw [traffic, hk]
    · rw [effect, find, hk]
      rfl
  | some k =>
    cases ht : draft.build with
    | error e =>
      refine .of_error (e := .draft e) ?_ ?_
      · rw [traffic, hk, ht]
      · rw [effect, find_eq_ok hk, ht]
        rfl
    | ok t =>
      have heffect : s.effect (.receive name draft) = .ok {
          session := s.setSink (some name) (k.receive [t]).1
          output := (k.receive [t]).2 } := by
        rw [effect, find_eq_ok hk, ht]
        rfl
      rw [← sinkAt_of_find? hk] at heffect
      exact .of_traffic s (traffic_receive (find_eq_ok hk) ht) heffect rfl rfl rfl rfl
        fun _ _ _ => rfl

theorem carries_newReporter (s : Session) (name : Text) (level : Level) (stream : Stream) :
    s.Carries (.newReporter name level stream) where
  scanner _ _ _ := rfl
  reporter n r hr := by
    have hn : n < s.reporters.length := (List.getElem?_eq_some_iff.mp hr).1
    exact (List.getElem?_append_left hn).trans hr
  sink _ _ _ hk := by
    rw [handedTo_eq_nil rfl, receive_nil]
    exact hk
  output := rfl

theorem carries_newSink (s : Session) (name : Text) (sink : Sink) :
    s.Carries (.newSink name sink) where
  scanner _ _ _ := rfl
  reporter _ _ hr := by
    rw [requestsTo_eq_nil rfl]
    exact hr
  sink other k hother hk := by
    have hne : other ≠ name := fun h => hother (by rw [h]; rfl)
    rw [handedTo_eq_nil rfl, receive_nil]
    show (s.sinks.put name sink).find? other = some k
    rw [Registry.find?_put, if_neg hne, hk]
  output := rfl

theorem effect_newScanner (s : Session) (name source : Text) (reporter : Option Text) :
    s.effect (.newScanner name source reporter) = (s.reporterNumber reporter).map fun number =>
      { session := s.setScanner name ⟨.ofSource source, number⟩ } := by
  rw [effect]
  cases s.reporterNumber reporter <;> rfl

theorem carries_newScanner (s : Session) (name source : Text) (reporter : Option Text) :
    s.Carries (.newScanner name source reporter) := by
  have heffect := effect_newScanner s name source reporter
  cases hn : s.reporterNumber reporter with
  | error e =>
    rw [hn] at heffect
    exact .of_error rfl heffect
  | ok number =>
    rw [hn] at heffect
    refine .of_idle rfl heffect rfl rfl rfl fun other _ hother => ?_
    exact find?_setScanner_of_ne (fun h => hother (by rw [h]; rfl)) _

theorem carries_sinkState (s : Session) (name : Text) : s.Carries (.sinkState name) := by
  cases hk : s.sinks.find? name with
  | none =>
    refine .of_error (e := .unknownName name) rfl ?_
    rw [effect, find, hk]
    rfl
  | some k =>
    obtain ⟨answer, heffect⟩ : ∃ answer,
        s.effect (.sinkState name) = .ok { session := s, answer } := by
      rw [effect, find_eq_ok hk]
      cases k <;> exact ⟨_, rfl⟩
    exact .of_idle rfl heffect rfl rfl rfl fun _ _ _ => rfl

theorem carries_scanString (s : Session) (source : Text) : s.Carries (.scanString source) := by
  cases htokens : scanStrict source with
  | error d =>
    refine .of_error (e := .lexical d) rfl ?_
    rw [effect, htokens]
    rfl
  | ok tokens =>
    have heffect : s.effect (.scanString source) =
        .ok { session := s, answer := .tokens tokens } := by
      rw [effect, htokens]
      rfl
    exact .of_idle rfl heffect rfl rfl rfl fun _ _ _ => rfl

theorem carries (s : Session) (a : Step) : s.Carries a := by
  cases a with
  | report name d | readDiagnostics name | clear name | printErrors name | setLevel name level =>
    refine carries_onReporter (by rw [effect]) (by rw [traffic]) fun r => ?_
    simp [Reporter.handled, Reporter.written, Reporter.handle]
  | state name | peek name | peekNext name | advance name | accept name expected | isAtEnd name =>
    exact carries_onScanner rfl rfl (by rw [effect])
  | scanTokens name | scan name =>
    exact carries_onFinished rfl (by rw [effect]) (by rw [traffic])
  | run name sink => exact carries_run s name sink
  | runSource source sink reporter => exact carries_runSource s source sink reporter
  | receive name draft => exact carries_receive s name draft
  | newReporter name level stream => exact carries_newReporter s name level stream
  | newSink name sink => exact carries_newSink s name sink
  | newScanner name source reporter => exact carries_newScanner s name source reporter
  | sinkState name => exact carries_sinkState s name
  | scanString source => exact carries_scanString s source

end Session

end LoxLex
