import LoxLex.Proofs.Session.LifeCycle
import LoxLex.Proofs.Session.Transcript

/-!
# Isolation of scanners

Among all the steps of a session a scanner takes part in its own only (`after_serves`). What these
answer does not hang on the other steps, on the reporter of the scanner or on the sinks that its
tokens go to: `scanner_isolated` compares two sessions that have nothing but the steps on one
scanner in common.
-/

namespace LoxLex

namespace Step

def on (name : Text) (steps : List Step) : List Step :=
  steps.filter fun a => a.scanner? = some name

/-- The step, whatever its sink. -/
def bare : Step → Step
  | run name _ => run name none
  | a => a

/-- What the steps answer, one after the other, that are all on the scanner `x`. -/
def results (x : Scanner) : List Step → List (Except StepError Answer)
  | [] => []
  | a :: rest => a.result x :: results (a.act x) rest

variable {x : Scanner} {steps : List Step}

theorem scanner?_bare (a : Step) : a.bare.scanner? = a.scanner? := by
  cases a <;> rfl

theorem act_bare (x : Scanner) (a : Step) : a.bare.act x = a.act x := by
  cases a <;> rfl

theorem result_bare (x : Scanner) (a : Step) : a.bare.result x = a.result x := by
  cases a <;> rfl

theorem foldl_act_bare (x : Scanner) (steps : List Step) :
    (steps.map bare).foldl act x = steps.foldl act x := by
  rw [List.foldl_map]
  simp only [act_bare]

theorem results_bare (x : Scanner) (steps : List Step) :
    results x (steps.map bare) = results x steps := by
  induction steps generalizing x with
  | nil => rfl
  | cons a steps ih => rw [List.map_cons, results, results, result_bare, act_bare, ih]

end Step

namespace Session

/-- The answer to a step on the scanner `name`. -/
def answersOf (name : Text) (s : Session) (a : Step) : List (Except StepError Answer) :=
  if a.scanner? = some name then [(s.step a).2.result] else []

/-- Every sink that a run of the scanner names is there when the run comes. -/
def Serves (s : Session) (name : Text) : List Step → Prop
  | [] => True
  | a :: rest => (a.scanner? = some name → s.Offers name a) ∧ (s.step a).1.Serves name rest

instance (s : Session) (name : Text) (a : Step) : Decidable (s.Offers name a) :=
  inferInstanceAs (Decidable (_ ∧ _))

instance decidableServes (s : Session) (name : Text) : (steps : List Step) →
    Decidable (s.Serves name steps)
  | [] => .isTrue trivial
  | a :: rest =>
    have := decidableServes (s.step a).1 name rest
    inferInstanceAs (Decidable ((a.scanner? = some name → s.Offers name a) ∧ _))

variable {s s₁ s₂ : Session} {name : Text} {w : Watched} {steps steps₁ steps₂ : List Step}
  {n₁ n₂ : Option Nat} {x : Scanner}

theorem serves_of_not_reads (h : ∀ a ∈ steps, a.scanner? = some name → a.reads = false) :
    s.Serves name steps := by
  induction steps generalizing s with
  | nil => trivial
  | cons a steps ih =>
    refine ⟨fun ha => ?_, ih fun b hb => h b (.tail _ hb)⟩
    have hreads := h a (List.mem_cons_self ..) ha
    cases a with
    | run _ _ => cases hreads
    | _ => exact offers_of_sink?_eq_none ha rfl

/-- The steps on the other things in a session do nothing to a scanner. -/
theorem after_serves (hw : s.scanners.find? name = some w)
    (hnew : ∀ a ∈ steps, a.newScanner? ≠ some name) (hserves : s.Serves name steps) :
    (s.after steps).scanners.find? name =
        some { w with scanner := (Step.on name steps).foldl Step.act w.scanner } ∧
      s.collect (answersOf name) steps = Step.results w.scanner (Step.on name steps) := by
  -- the invariant: the scanner is what its own steps so far have made of it
  induction steps generalizing s w with
  | nil => exact ⟨hw, rfl⟩
  | cons a steps ih =>
    have hrest : ∀ b ∈ steps, b.newScanner? ≠ some name := fun b hb => hnew b (.tail _ hb)
    obtain ⟨hoffers, hlater⟩ := hserves
    by_cases ha : a.scanner? = some name
    · have hon := step_on hw (hoffers ha)
      obtain ⟨hscanner, hanswers⟩ := ih hon.scanner hrest hlater
      have hcons : Step.on name (a :: steps) = a :: Step.on name steps :=
        List.filter_cons_of_pos (by simpa using ha)
      rw [hcons, List.foldl_cons, collect, hanswers, answersOf, if_pos ha, hon.result]
      exact ⟨hscanner, rfl⟩
    · have hsame : (s.step a).1.scanners.find? name = some w :=
        ((carries s a).scanner name ha (hnew a (List.mem_cons_self ..))).trans hw
      obtain ⟨hscanner, hanswers⟩ := ih hsame hrest hlater
      have hcons : Step.on name (a :: steps) = Step.on name steps :=
        List.filter_cons_of_neg (by simpa using ha)
      rw [hcons, collect, hanswers, answersOf, if_neg ha, List.nil_append]
      exact ⟨hscanner, rfl⟩

theorem scanner?_of_map_bare (h : steps₂.map Step.bare = (Step.on name steps₁).map Step.bare) :
    ∀ a ∈ steps₂, a.scanner? = some name := by
  intro a ha
  have hmem : a.bare ∈ (Step.on name steps₁).map Step.bare := h ▸ List.mem_map_of_mem ha
  obtain ⟨b, hb, hab⟩ := List.mem_map.mp hmem
  rw [← Step.scanner?_bare, ← hab, Step.scanner?_bare]
  simpa using (List.mem_filter.mp hb).2

theorem map_result_replies (h : ∀ a ∈ steps, a.scanner? = some name) :
    (s.replies steps).map Reply.result = s.collect (answersOf name) steps := by
  induction steps generalizing s with
  | nil => rfl
  | cons a steps ih =>
    rw [replies, List.map_cons, ih fun b hb => h b (.tail _ hb), collect, answersOf,
      if_pos (h a (List.mem_cons_self ..))]
    rfl

/-- The second session has the steps of the first one on the scanner `name`, with any sinks, and no
others. The reporters and the rest of the two sessions have nothing to do with each other. -/
theorem scanner_isolated (h₁ : s₁.scanners.find? name = some ⟨x, n₁⟩)
    (h₂ : s₂.scanners.find? name = some ⟨x, n₂⟩)
    (hsteps : steps₂.map Step.bare = (Step.on name steps₁).map Step.bare)
    (hnew : ∀ a ∈ steps₁, a.newScanner? ≠ some name) (hserves₁ : s₁.Serves name steps₁)
    (hserves₂ : s₂.Serves name steps₂) :
    s₁.collect (answersOf name) steps₁ = (s₂.replies steps₂).map Reply.result ∧
      ∃ y, (s₁.after steps₁).scanners.find? name = some ⟨y, n₁⟩ ∧
        (s₂.after steps₂).scanners.find? name = some ⟨y, n₂⟩ := by
  have hall := scanner?_of_map_bare hsteps
  have hon : Step.on name steps₂ = steps₂ := List.filter_eq_self.mpr (by simpa using hall)
  have hnew₂ : ∀ a ∈ steps₂, a.newScanner? ≠ some name := by
    intro a ha
    have := hall a ha
    cases a with
    | newScanner _ _ _ => cases this
    | _ => exact nofun
  obtain ⟨hscanner₁, hanswers₁⟩ := after_serves h₁ hnew hserves₁
  obtain ⟨hscanner₂, hanswers₂⟩ := after_serves h₂ hnew₂ hserves₂
  refine ⟨?_, _, hscanner₁, ?_⟩
  · rw [hanswers₁, map_result_replies hall, hanswers₂, hon, ← Step.results_bare, ← hsteps,
      Step.results_bare]
  · rw [hscanner₂, hon, ← Step.foldl_act_bare, hsteps, Step.foldl_act_bare]

/-- The reporter, the stream and the sink that `x` has in the first session are also those of `y`,
which reports a fault before `x` does, and whose tokens come between those of `x`. -/
theorem scanner_isolated_shared :
    let shared : Stream := .memory ['m']
    let s₁ := Session.after {} [.newReporter ['r'] Level.error shared,
      .newScanner ['x'] ['a', '@', '\n'] (some ['r']), .newScanner ['y'] ['"'] (some ['r']),
      .newSink ['k'] (.console shared)]
    let s₂ := Session.after {} [.newScanner ['x'] ['a', '@', '\n'] none, .newSink ['j'] .counter]
    let steps₁ : List Step := [.scan ['y'], .accept ['x'] ['a'], .clear ['r'],
      .run ['x'] (some ['k']), .setLevel ['r'] Level.silent, .run ['y'] (some ['k']), .advance ['x'], .printErrors ['r'],
      .run ['x'] (some ['k']), .state ['x']]
    let steps₂ : List Step := [.accept ['x'] ['a'], .run ['x'] none, .advance ['x'],
      .run ['x'] (some ['j']), .state ['x']]
    s₁.scanners.find? ['x'] = some ⟨.ofSource ['a', '@', '\n'], some 0⟩ ∧
      s₂.scanners.find? ['x'] = some ⟨.ofSource ['a', '@', '\n'], none⟩ ∧
      steps₂.map Step.bare = (Step.on ['x'] steps₁).map Step.bare ∧
      (∀ a ∈ steps₁, a.newScanner? ≠ some ['x']) ∧
      s₁.Serves ['x'] steps₁ ∧ s₂.Serves ['x'] steps₂ ∧
      s₁.collect (answersOf ['x']) steps₁ = (s₂.replies steps₂).map Reply.result := by
  intro shared s₁ s₂ steps₁ steps₂
  have h₁ : s₁.scanners.find? ['x'] = some ⟨.ofSource ['a', '@', '\n'], some 0⟩ := rfl
  have h₂ : s₂.scanners.find? ['x'] = some ⟨.ofSource ['a', '@', '\n'], none⟩ := rfl
  have hsteps : steps₂.map Step.bare = (Step.on ['x'] steps₁).map Step.bare := rfl
  have hnew : ∀ a ∈ steps₁, a.newScanner? ≠ some ['x'] := by decide
  have hserves₁ : s₁.Serves ['x'] steps₁ := by decide +kernel
  have hserves₂ : s₂.Serves ['x'] steps₂ := by decide +kernel
  exact ⟨h₁, h₂, hsteps, hnew, hserves₁, hserves₂,
    (scanner_isolated h₁ h₂ hsteps hnew hserves₁ hserves₂).1⟩

end Session

end LoxLex
