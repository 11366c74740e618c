import LoxLex.Proofs.Session.OneScanner
import LoxLex.Proofs.Scanner.Phases

/-!
# The life of a scanner

However the steps on a scanner follow each other, it reads its source with the first step that asks
for it and never again. Before that step only the cursor moves, and after it nothing does.
`scanner_life_cycle` says so of the scanners in a session; the phases are those of
`Scanner.Unread` and `Scanner.Complete`.
-/

namespace LoxLex

namespace Step

/-- The steps that take the character at the cursor. -/
def Moves (x : Scanner) : Step → Prop
  | advance _ => x.current < x.source.length
  | accept _ expected => ∃ c, x.source[x.current]? = some c ∧ expected = [c]
  | _ => False

/-- What a step answers that reads the source and leaves the scanner as `x`. -/
def reading (x : Scanner) : Step → Answer
  | scanTokens _ => .tokens x.tokens
  | _ => .scan x.result

variable {x : Scanner} {a : Step} {steps : List Step}

theorem act_of_reads (ha : a.reads = true) : a.act x = x.scanAll.1 := by
  cases a with
  | scanTokens _ | scan _ | run _ _ => rfl
  | _ => cases ha

theorem result_of_reads (ha : a.reads = true) : a.result x = .ok (a.reading (a.act x)) := by
  cases a with
  | scanTokens _ | scan _ | run _ _ => rfl
  | _ => cases ha

theorem act_of_moves (hx : a.Moves x) : a.act x = { x with current := x.current + 1 } := by
  cases a with
  | advance n =>
    have hx : x.current < x.source.length := hx
    simp [act, Scanner.advance?, hx]
  | accept n expected =>
    obtain ⟨c, hc, rfl⟩ := hx
    simp [act, Scanner.accept, hc]
  | _ => exact hx.elim

theorem act_of_not_moves (ha : a.reads = false) (hx : ¬ a.Moves x) : a.act x = x := by
  cases a with
  | advance n =>
    have hx : x.source.length ≤ x.current := Nat.le_of_not_lt hx
    simp [act, Scanner.advance?_eq_none_iff.mpr hx]
  | accept n expected =>
    rw [act, Scanner.accept]
    split
    · next c hc =>
      rw [if_neg fun hexpected => hx ⟨c, hc, hexpected⟩]
    · rfl
  | scanTokens _ | scan _ | run _ _ => cases ha
  | _ => rfl

theorem source_act (x : Scanner) (a : Step) : (a.act x).source = x.source := by
  cases ha : a.reads with
  | true =>
    rw [act_of_reads ha, Scanner.scanAll]
    split <;> rfl
  | false =>
    by_cases hx : a.Moves x
    · rw [act_of_moves hx]
    · rw [act_of_not_moves ha hx]

theorem lt_of_moves (hx : a.Moves x) : x.current < x.source.length := by
  cases a with
  | advance n => exact hx
  | accept n expected =>
    obtain ⟨c, hc, -⟩ := hx
    exact (List.getElem?_eq_some_iff.mp hc).1
  | _ => exact hx.elim

/-! ## Phases -/

theorem unread_act (h : x.Unread) (ha : a.reads = false) : (a.act x).Unread := by
  by_cases hx : a.Moves x
  · rw [act_of_moves hx]
    exact h.moved (lt_of_moves hx)
  · rwa [act_of_not_moves ha hx]

theorem act_of_complete (h : x.Complete) : a.act x = x := by
  cases ha : a.reads with
  | true => rw [act_of_reads ha, h.scanAll_eq]
  | false =>
    refine act_of_not_moves ha fun hx => ?_
    have hlt := lt_of_moves hx
    have hend := h.current
    omega

theorem complete_act (h : x.Unread ∨ x.Complete) (ha : a.reads = true) : (a.act x).Complete := by
  obtain h | h := h
  · rw [act_of_reads ha]
    exact h.complete_scanAll
  · rwa [act_of_complete h]

theorem found_of_complete (h : x.Complete) : a.found x = [] := by
  rw [found, h.scanAll_eq, ite_self]

theorem source_foldl_act (x : Scanner) (steps : List Step) :
    (steps.foldl act x).source = x.source := by
  induction steps generalizing x with
  | nil => rfl
  | cons a steps ih => rw [List.foldl_cons, ih, source_act]

theorem unread_foldl_act (h : x.Unread) (hsteps : ∀ a ∈ steps, a.reads = false) :
    (steps.foldl act x).Unread := by
  induction steps generalizing x with
  | nil => exact h
  | cons a steps ih =>
    exact ih (unread_act h (hsteps a (List.mem_cons_self ..))) fun b hb => hsteps b (.tail _ hb)

theorem foldl_act_of_complete (h : x.Complete) (steps : List Step) : steps.foldl act x = x := by
  induction steps with
  | nil => rfl
  | cons a steps ih => rw [List.foldl_cons, act_of_complete h, ih]

/-- One step that reads is enough, whichever steps stand around it. -/
theorem complete_foldl_act (h : x.Unread) (hsteps : ∃ a ∈ steps, a.reads = true) :
    (steps.foldl act x).Complete := by
  induction steps generalizing x with
  | nil => simp at hsteps
  | cons a steps ih =>
    rw [List.foldl_cons]
    cases ha : a.reads with
    | true =>
      have hcomplete := complete_act (.inl h) ha
      rwa [foldl_act_of_complete hcomplete]
    | false =>
      have hrest : ∃ b ∈ steps, b.reads = true := by simpa [ha] using hsteps
      exact ih (unread_act h ha) hrest

end Step

namespace Session

/-- What a step on the scanner `x`, which has the name `name` and reports to the reporter `number`,
makes of it: the scanner is `y` afterwards. -/
structure Turn (s : Session) (name : Text) (number : Option Nat) (x : Scanner) (a : Step)
    (y : Scanner) : Prop where
  scanner : (s.step a).1.scanners.find? name = some ⟨y, number⟩
  moves : a.reads = false → a.Moves x → y = { x with current := x.current + 1 }
  stays : a.reads = false → ¬ a.Moves x → y = x
  reads : a.reads = true → y.Complete ∧ (s.step a).2.result = .ok (a.reading y)
  /-- Later steps find nothing to do, to report or to write but the tokens for a sink. -/
  complete : x.Complete → y = x ∧ a.found x = [] ∧ (s.step a).1.reporters = s.reporters ∧
    (s.step a).2.output = s.delivered x a
  /-- There is nothing to take at the end, and trying changes nothing at all. -/
  exhausted : a = .advance name → x.current = x.source.length →
    s.step a = (s, ⟨.error .endOfSource, []⟩)

variable {s : Session} {name : Text} {number : Option Nat} {x : Scanner} {a : Step}

theorem turn_of_offers (hx : s.scanners.find? name = some ⟨x, number⟩) (ha : s.Offers name a)
    (hphase : x.Unread ∨ x.Complete) : s.Turn name number x a (a.act x) where
  scanner := (step_on hx ha).scanner
  moves _ hmoves := Step.act_of_moves hmoves
  stays hreads hmoves := Step.act_of_not_moves hreads hmoves
  reads hreads := by
    refine ⟨Step.complete_act hphase hreads, ?_⟩
    rw [(step_on hx ha).result, Step.result_of_reads hreads]
  complete hcomplete := by
    have hon := step_on hx ha
    have hreporters := hon.reporters
    have houtput := hon.output
    rw [Step.found_of_complete hcomplete, Reporter.report_nil] at hreporters houtput
    refine ⟨Step.act_of_complete hcomplete, Step.found_of_complete hcomplete, ?_, ?_⟩
    · rw [hreporters, setReporter_reporterAt]
    · rw [houtput, Step.act_of_complete hcomplete, List.nil_append]
  exhausted hadvance hend := by
    rw [hadvance]
    exact step_advance_of_none hx (Scanner.advance?_eq_none_iff.mpr (Nat.le_of_eq hend.symm))

/-- The scanner is new in `s`, and all `steps` are on it. Every state it can come to is valid: it is
unread as long as no step has read the source, and complete from then on. -/
theorem scanner_life_cycle {source : Text} {steps : List Step}
    (hnew : s.scanners.find? name = some ⟨.ofSource source, number⟩)
    (hsteps : ∀ a ∈ steps, s.Offers name a) :
    ∃ x, (s.after steps).scanners.find? name = some ⟨x, number⟩ ∧ x.source = source ∧ x.Valid ∧
      ((∀ a ∈ steps, a.reads = false) → x.Unread) ∧
      ((∃ a ∈ steps, a.reads = true) → x.Complete) ∧
      ∀ a, s.Offers name a → ∃ y, (s.after steps).Turn name number x a y := by
  obtain ⟨hscanner, hoffers⟩ := after_on hnew hsteps
  have hunread := Scanner.unread_ofSource source
  have hbefore (h : ∀ a ∈ steps, a.reads = false) := Step.unread_foldl_act hunread h
  have hafter (h : ∃ a ∈ steps, a.reads = true) := Step.complete_foldl_act hunread h
  have hphase : (steps.foldl Step.act (.ofSource source)).Unread ∨
      (steps.foldl Step.act (.ofSource source)).Complete := by
    by_cases h : ∃ a ∈ steps, a.reads = true
    · exact .inr (hafter h)
    · exact .inl (hbefore (by simpa using h))
  exact ⟨_, hscanner, Step.source_foldl_act _ _, hphase.elim (·.valid) (·.valid), hbefore, hafter,
    fun a ha => ⟨_, turn_of_offers hscanner (hoffers a ha) hphase⟩⟩

/-- The first character is taken by hand, the others are read, with a fault, and the tokens go to a
counter afterwards. -/
theorem scanner_life_cycle_moved :
    let s := Session.after {} [.newReporter ['r'] Level.error .standardError,
      .newScanner ['s'] ['a', 'b', '@', 'c'] (some ['r']), .newSink ['k'] .counter]
    let steps : List Step := [.accept ['s'] ['a', 'b'], .accept ['s'] ['a'], .scan ['s']]
    let last := s.after steps
    let again := last.step (.run ['s'] (some ['k']))
    ∃ x, last.scanners.find? ['s'] = some ⟨x, some 0⟩ ∧ x.source = ['a', 'b', '@', 'c'] ∧
      x.Complete ∧ again.1.scanners.find? ['s'] = some ⟨x, some 0⟩ ∧
      again.1.reporters = last.reporters ∧ again.2.result = .ok (.scan x.result) ∧
      again.2.output = [] ∧ last.step (.advance ['s']) = (last, ⟨.error .endOfSource, []⟩) := by
  intro s steps last again
  have hnew : s.scanners.find? ['s'] = some ⟨.ofSource ['a', 'b', '@', 'c'], some 0⟩ := rfl
  have hsteps : ∀ a ∈ steps, s.Offers ['s'] a := by
    intro a ha
    simp only [steps, List.mem_cons, List.not_mem_nil, or_false] at ha
    obtain rfl | rfl | rfl := ha <;> exact ⟨rfl, nofun⟩
  have hrun : s.Offers ['s'] (.run ['s'] (some ['k'])) := ⟨rfl, by rintro _ ⟨⟩; rfl⟩
  obtain ⟨x, hx, hsource, -, -, hafter, hturn⟩ := scanner_life_cycle hnew hsteps
  have hcomplete : x.Complete := hafter ⟨.scan ['s'], by simp [steps], rfl⟩
  obtain ⟨y, hy⟩ := hturn _ hrun
  obtain ⟨rfl, -, hreporters, houtput⟩ := hy.complete hcomplete
  obtain ⟨z, hz⟩ := hturn (.advance ['s']) ⟨rfl, nofun⟩
  have hsink : last.sinkNamed (some ['k']) = .ok .counter := rfl
  refine ⟨y, hx, hsource, hcomplete, hy.scanner, hreporters, (hy.reads rfl).2, ?_,
    hz.exhausted rfl hcomplete.current⟩
  rw [houtput, delivered, hsink]
  rfl

end Session

end LoxLex
