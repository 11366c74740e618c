import LoxLex.Proofs.Scan.Order
import LoxLex.Proofs.Session.Scanners
import LoxLex.Proofs.Session.Transcript

/-!
# Delivery of tokens

A run hands all tokens of its scanner to its sink, in order and after the diagnostics
(`Delivers`, `Rerun`), and a sink shows what it has been handed and nothing else (`sink_after`).
`tokens_delivered` puts the two together for all runs and sinks of a session.
-/

namespace LoxLex

theorem Sink.receive_append (k : Sink) (ts us : List Token) :
    k.receive (ts ++ us) =
      (((k.receive ts).1.receive us).1, (k.receive ts).2 ++ ((k.receive ts).1.receive us).2) := by
  cases k with
  | console stream => simp [receive, Output.linesTo]
  | counting count last =>
    simp [receive, Nat.add_assoc, List.getLast?_append, Option.or_assoc]

/-- The tokens of what comes after the first `k` characters of a source. -/
def Scan.tokensFrom (source : Text) (k : Nat) : List Token :=
  ((scan (source.drop k)).behind k).tokens

theorem exists_tokensFrom_eq_concat {source : Text} {k : Nat} (hk : k ≤ source.length) :
    ∃ ts line, Scan.tokensFrom source k = ts ++ [endToken source.length line] ∧
      ∀ t ∈ ts, t.kind ≠ .endOfInput := by
  obtain ⟨ts, hts, hkinds⟩ := exists_tokens_eq_concat (source.drop k)
  refine ⟨ts.map (Token.moved k 0), (scan (source.drop k)).line, ?_, fun t ht => ?_⟩
  · have hlength : ((source.drop k).length : Int) + k = source.length := by
      rw [List.length_drop]
      omega
    rw [Scan.tokensFrom, Scan.behind, hts, List.map_append, List.map_singleton]
    simp only [endToken, Token.moved, hlength, Int.add_zero]
  · obtain ⟨u, hu, rfl⟩ := List.mem_map.mp ht
    exact hkinds u hu

theorem pairwise_tokensFrom_offset (source : Text) (k : Nat) :
    ((Scan.tokensFrom source k).map Token.offset).Pairwise (· < ·) := by
  have hscan := pairwise_tokens_offset (source.drop k)
  rw [List.pairwise_map] at hscan
  rw [Scan.tokensFrom, Scan.behind, List.map_map, List.pairwise_map]
  refine hscan.imp fun {t u} htu => ?_
  show t.offset + k < u.offset + k
  omega

/-- The sink that a step hands tokens to, if it is one that does. -/
def Step.target? : Step → Option (Option Text)
  | run _ sink | runSource _ sink _ => some sink
  | receive name _ => some (some name)
  | _ => none

namespace Session

variable {s : Session} {name : Text} {w : Watched} {sink : Option Text} {k : Sink}
  {steps : List Step}

/-! ## Sinks -/

theorem sinkNamed_step {a : Step} (h : s.sinkNamed sink = .ok k)
    (hnew : ∀ name ∈ sink, a.newSink? ≠ some name) :
    (s.step a).1.sinkNamed sink = .ok (k.receive (s.handedTo sink a)).1 := by
  cases sink with
  | none =>
    cases h
    rfl
  | some name => exact find_eq_ok ((carries s a).sink name k (hnew name rfl) (find?_of_sinkNamed h))

/-- A sink takes what it is handed, one step after the other, and writes when it takes it. -/
theorem sink_after (h : s.sinkNamed sink = .ok k)
    (hnew : ∀ a ∈ steps, ∀ name ∈ sink, a.newSink? ≠ some name) :
    (s.after steps).sinkNamed sink = .ok (k.receive (s.collect (handedTo sink) steps)).1 ∧
      writtenBy (.sink sink) (s.transcript steps) =
        (k.receive (s.collect (handedTo sink) steps)).2 := by
  rw [writtenBy_transcript]
  induction steps generalizing s k with
  | nil =>
    rw [collect, collect, receive_nil]
    exact ⟨h, rfl⟩
  | cons a steps ih =>
    have hstep := sinkNamed_step h (hnew a (List.mem_cons_self ..))
    obtain ⟨hsink, hwritten⟩ := ih hstep fun b hb => hnew b (.tail _ hb)
    rw [collect, collect, hwritten, writtenBy_sink, sinkAt_of_sinkNamed h, Sink.receive_append]
    exact ⟨hsink, rfl⟩

theorem step_sinkState {count : Nat} {last : Option Token}
    (h : s.sinkNamed (some name) = .ok (.counting count last)) :
    s.step (.sinkState name) = (s, ⟨.ok (.count count last), []⟩) := by
  have hfound : find s.sinks name = .ok (.counting count last) := h
  have heffect : s.effect (.sinkState name) =
      .ok { session := s, answer := .count count last } := by
    rw [effect, hfound]
    rfl
  rw [step_of_effect heffect]

/-! ## Runs -/

/-- What the step `a` comes to, which runs a scanner of the reporter `number` into the sink. The
scanner reads `source` from `k` on, and it finds the diagnostics `found` now. -/
structure Delivers (s : Session) (a : Step) (number : Option Nat) (sink : Option Text)
    (source : Text) (k : Nat) (found : List Diagnostic) (ts : List Token) : Prop where
  complete : ts = Scan.tokensFrom source k
  result : ∃ r, (s.step a).2.result = .ok (.scan r) ∧ r.tokens = ts
  handed : ∀ other, s.handedTo other a = if sink = other then ts else []
  last : ∃ body line, ts = body ++ [endToken source.length line] ∧ ∀ t ∈ body, t.kind ≠ .endOfInput
  /-- The tokens come in the order of the source, none of them twice. -/
  ordered : (ts.map Token.offset).Pairwise (· < ·)
  /-- All diagnostics are written before the first token, to the same stream or not. -/
  written : ∀ stream, s.sinkNamed sink = .ok (.console stream) → (s.step a).2.output =
    Output.linesTo (s.reporterAt number).stream
        (if (s.reporterAt number).level = Level.silent then [] else found.map Diagnostic.display) ++
      Output.linesTo stream (ts.map Token.display)
  reported : ∀ n, s.requestsTo n a = if number = some n then found.map .report else []

/-- What comes after a run of a scanner, which handed over `ts`: another run hands over the same
tokens and reports nothing, whichever steps come in between. -/
def Rerun (s : Session) (name : Text) (ts : List Token) : Prop :=
  ∀ later, (∀ a ∈ later, a.newScanner? ≠ some name) →
    ∀ sink, (s.after later).Offers name (.run name sink) →
      (s.after later).handedTo sink (.run name sink) = ts ∧
        ∀ n, (s.after later).requestsTo n (.run name sink) = []

theorem Delivers.of_traffic {a : Step} {number : Option Nat} {source : Text} {c : Nat}
    {found : List Diagnostic} {r : Scan}
    (ht : s.traffic a = {
      reporter := number
      requests := found.map .report
      sink
      tokens := r.tokens })
    (hc : c ≤ source.length) (hcomplete : r.tokens = Scan.tokensFrom source c)
    (hresult : (s.step a).2.result = .ok (.scan r)) :
    s.Delivers a number sink source c found r.tokens where
  complete := hcomplete
  result := ⟨r, hresult, rfl⟩
  handed other := by rw [handedTo, ht]
  last := by
    obtain ⟨body, line, hbody, hkinds⟩ := exists_tokensFrom_eq_concat hc
    exact ⟨body, line, hcomplete.trans hbody, hkinds⟩
  ordered := hcomplete ▸ pairwise_tokensFrom_offset source c
  written stream hstream := by
    rw [(carries s a).output, ht, sinkAt_of_sinkNamed hstream, Reporter.written_reports_eq]
    rfl
  reported n := by rw [requestsTo, ht]

theorem delivers_run (hw : s.scanners.find? name = some w) (hproper : w.scanner.Proper)
    (ha : s.Offers name (.run name sink)) :
    ∃ c ≤ w.scanner.source.length, (w.scanner.finished = false → c = w.scanner.current) ∧
      s.Delivers (.run name sink) w.reporter sink w.scanner.source c
        (if w.scanner.finished then [] else (scan w.scanner.remaining).diagnostics)
        w.scanner.scanAll.1.tokens := by
  obtain ⟨k, hk⟩ := ha.sinkNamed
  have htraffic := traffic_run hw hk
  have hresult := (step_on hw ha).result
  obtain h | ⟨c, h⟩ := hproper
  -- the scanner reads now, or it hands over again what it has read from `c` on
  · obtain ⟨hscan, hfound⟩ := h.scanAll_eq
    rw [hfound] at htraffic
    rw [h.finished]
    exact ⟨_, h.current, fun _ => rfl,
      .of_traffic htraffic h.current (congrArg Scan.tokens hscan) hresult⟩
  · rw [h.scanAll_eq] at htraffic
    rw [Step.result, h.scanAll_eq] at hresult
    rw [h.finished, h.scanAll_eq]
    exact ⟨c, h.le, by simp,
      .of_traffic (r := w.scanner.result) htraffic h.le (congrArg Scan.tokens h.result) hresult⟩

theorem delivers_runSource (source : Text) {reporter : Option Text} {number : Option Nat}
    (hnumber : s.reporterNumber reporter = .ok number) (hk : s.sinkNamed sink = .ok k) :
    s.Delivers (.runSource source sink reporter) number sink source 0 (scan source).diagnostics
      (scan source).tokens := by
  refine .of_traffic (traffic_runSource hnumber hk) (Nat.zero_le _) ?_ ?_
  · rw [Scan.tokensFrom, List.drop_zero, Scan.behind, Int.natCast_zero, Token.moved_zero,
      List.map_id]
  · have heffect : s.effect (.runSource source sink reporter) = _ := runSource_eq hnumber hk
    rw [step_of_effect heffect]

theorem rerun (hw : s.scanners.find? name = some w) (hproper : w.scanner.Proper)
    (ha : s.Offers name (.run name sink)) :
    (s.step (.run name sink)).1.Rerun name w.scanner.scanAll.1.tokens := by
  intro later hnew target ht
  have hcomplete : w.scanner.scanAll.1.Complete :=
    Step.complete_act (a := .run name sink) hproper.unread_or_complete rfl
  have hscanner := after_of_complete (step_on hw ha).scanner hcomplete hnew
  obtain ⟨k, hk⟩ := ht.sinkNamed
  refine ⟨?_, fun n => ?_⟩
  · rw [handedTo, traffic_run hscanner hk, if_pos rfl, Step.act, hcomplete.scanAll_eq]
  · rw [requestsTo_of_offers hscanner ht, Step.act, Step.found_of_complete hcomplete]
    exact ite_self _

theorem tokens_eq_nil_or_target? (s : Session) (a : Step) :
    (s.traffic a).tokens = [] ∨ a.target? = some (s.traffic a).sink := by
  cases a with
  | run _ _ | runSource _ _ _ | receive _ _ =>
    rw [traffic]
    split
    · exact .inr rfl
    · exact .inl rfl
  | scanTokens _ | scan _ =>
    rw [traffic]
    split <;> exact .inl rfl
  | report _ _ | readDiagnostics _ | clear _ | printErrors _ | setLevel _ _ =>
    rw [traffic, trafficTo]
    split <;> exact .inl rfl
  | _ => exact .inl rfl

theorem handedTo_of_target? {a : Step} (h : a.target? ≠ some sink) : s.handedTo sink a = [] := by
  rw [handedTo]
  split
  · next hsink =>
    refine (tokens_eq_nil_or_target? s a).resolve_right fun htarget => h ?_
    rw [htarget, hsink]
  · rfl

/-- What the steps that hand over tokens come to in a session. -/
structure RunsDeliver (s : Session) : Prop where
  /-- A scanner hands over what it reads from the cursor on, or what it has read already. -/
  run : ∀ name w sink, s.scanners.find? name = some w → s.Offers name (.run name sink) →
    let ts := w.scanner.scanAll.1.tokens
    (∃ c ≤ w.scanner.source.length, (w.scanner.finished = false → c = w.scanner.current) ∧
      s.Delivers (.run name sink) w.reporter sink w.scanner.source c
        (if w.scanner.finished then [] else (scan w.scanner.remaining).diagnostics) ts) ∧
    (s.step (.run name sink)).1.Rerun name ts
  runSource : ∀ source sink reporter number k, s.reporterNumber reporter = .ok number →
    s.sinkNamed sink = .ok k →
    s.Delivers (.runSource source sink reporter) number sink source 0 (scan source).diagnostics
      (scan source).tokens
  receive : ∀ name draft k t, s.sinkNamed (some name) = .ok k → draft.build = .ok t →
    ∀ other, s.handedTo other (.receive name draft) = if some name = other then [t] else []
  others : ∀ a sink, a.target? ≠ some sink → s.handedTo sink a = []

theorem runsDeliver (steps : List Step) : (after {} steps).RunsDeliver where
  run _ _ _ hw ha := by
    have hproper := proper_after steps hw
    exact ⟨delivers_run hw hproper ha, rerun hw hproper ha⟩
  runSource source _ _ _ _ hnumber hk := delivers_runSource source hnumber hk
  receive name draft k t hk ht other := by
    rw [handedTo, traffic_receive hk ht]
  others _ _ h := handedTo_of_target? h

/-- What the sink `name` shows, which is new in `s`, once the `steps` are done. -/
structure SinkShows (s : Session) (name : Text) (sink : Sink) (steps : List Step) : Prop where
  counts : sink = .counter →
    let handed := s.collect (handedTo (some name)) steps
    (s.after steps).step (.sinkState name) =
      (s.after steps, ⟨.ok (.count handed.length handed.getLast?), []⟩)
  writes : ∀ stream, sink = .console stream → writtenBy (.sink (some name)) (s.transcript steps) =
    Output.linesTo stream ((s.collect (handedTo (some name)) steps).map Token.display)

theorem sinkShows (h : s.sinkNamed (some name) = .ok k)
    (hnew : ∀ a ∈ steps, a.newSink? ≠ some name) :
    s.SinkShows name k steps := by
  have hnew : ∀ a ∈ steps, ∀ other ∈ some name, a.newSink? ≠ some other := by
    rintro a ha _ ⟨⟩
    exact hnew a ha
  obtain ⟨hstate, hwritten⟩ := sink_after h hnew
  refine ⟨?_, ?_⟩
  · rintro rfl
    refine step_sinkState (hstate.trans ?_)
    simp only [Sink.counter, Sink.receive, Nat.zero_add, Option.or_none]
  · rintro stream rfl
    exact hwritten

theorem sinkNamed_newSink (s : Session) (name : Text) (sink : Sink) :
    (s.step (.newSink name sink)).1.sinkNamed (some name) = .ok sink :=
  find_eq_ok (by rw [step_of_effect rfl, setSink, Registry.find?_put, if_pos rfl])

/-- All runs deliver, whatever came before, and the sinks show what they have been handed: a run
without a sink has a console of its own, and a sink shows it from the step that makes it up to
another step that takes its name. -/
theorem tokens_delivered (steps : List Step) :
    (after {} steps).RunsDeliver ∧
      (transcript {} steps).map Entry.writing = (replies {} steps).flatMap Reply.output ∧
      writtenBy (.sink none) (transcript {} steps) =
        Output.linesTo .standardOutput ((collect {} (handedTo none) steps).map Token.display) ∧
      ∀ before name sink later, steps = before ++ .newSink name sink :: later →
        (∀ a ∈ later, a.newSink? ≠ some name) →
        ((after {} before).step (.newSink name sink)).1.SinkShows name sink later := by
  have hconsole : sinkNamed {} none = .ok (.console .standardOutput) := rfl
  refine ⟨runsDeliver steps, map_writing_transcript {} steps, ?_, ?_⟩
  · exact (sink_after hconsole fun _ _ => nofun).2
  · intro before name sink later _ hnew
    exact sinkShows (sinkNamed_newSink ..) hnew

/-- A console on the stream of the reporter takes the first run, with a fault before the tokens. A
counter takes a token by hand, the second run and the scan of another source. -/
theorem tokens_delivered_twice :
    let stream : Stream := .memory ['m']
    let before : List Step := [.newReporter ['r'] Level.error stream,
      .newScanner ['x'] ['a', '@'] (some ['r']), .newSink ['c'] (.console stream)]
    let s := after {} before
    let first : Step := .run ['x'] (some ['c'])
    let ts : List Token := [⟨.identifier, ['a'], .none, 1, 0⟩, ⟨.endOfInput, [], .none, 1, 2⟩]
    let later : List Step := [first, .receive ['k'] { kind := "DOT".toList, lexeme := ['.'] },
      .run ['x'] (some ['k']), .runSource ['\n'] (some ['k']) none]
    let last := (s.step (.newSink ['k'] .counter)).1.after later
    s.Delivers first (some 0) (some ['c']) ['a', '@'] 0
        [Fault.diagnostic (.unexpectedCharacter '@') 1] ts ∧
      (s.step first).1.Rerun ['x'] ts ∧
      last.step (.sinkState ['k']) =
        (last, ⟨.ok (.count 4 (some ⟨.endOfInput, [], .none, 2, 1⟩)), []⟩) := by
  intro stream before s first ts later last
  obtain ⟨hruns, -⟩ := tokens_delivered before
  obtain ⟨-, -, -, hsinks⟩ := tokens_delivered (before ++ .newSink ['k'] .counter :: later)
  have hscanner : s.scanners.find? ['x'] = some ⟨.ofSource ['a', '@'], some 0⟩ := rfl
  have hoffers : s.Offers ['x'] first := ⟨rfl, by rintro _ ⟨⟩; rfl⟩
  obtain ⟨⟨c, -, hc, hdelivers⟩, hrerun⟩ := hruns.run _ _ _ hscanner hoffers
  obtain rfl : c = 0 := hc rfl
  have htokens : (Scanner.ofSource ['a', '@']).scanAll.1.tokens = ts := by decide +kernel
  have hfound : (scan ['a', '@']).diagnostics =
      [Fault.diagnostic (.unexpectedCharacter '@') 1] := by
    decide +kernel
  rw [htokens] at hdelivers hrerun
  refine ⟨?_, hrerun, ?_⟩
  · rw [← hfound]
    exact hdelivers
  · have hcounts := (hsinks before ['k'] .counter later rfl (by decide)).counts rfl
    have hhanded : collect ((after {} before).step (.newSink ['k'] .counter)).1
        (handedTo (some ['k'])) later =
          ⟨.symbol .dot, ['.'], .none, 1, 0⟩ :: ts ++ [⟨.endOfInput, [], .none, 2, 1⟩] := by
      decide +kernel
    simp only [hhanded] at hcounts
    exact hcounts

end Session

end LoxLex
