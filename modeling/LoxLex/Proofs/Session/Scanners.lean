import LoxLex.Proofs.Scanner.Cursor
import LoxLex.Proofs.Session.LifeCycle
import LoxLex.Proofs.Session.Traffic

/-!
# The scanners of a session

A step makes a new scanner, or goes on with one by `Step.act`, or leaves it alone (`scanner_step`).
So every scanner that a session comes to is `Scanner.Proper` (`proper_after`), and one that has read
its source stays what it is (`after_of_complete`).
-/

namespace LoxLex

theorem Step.proper_act {x : Scanner} (h : x.Proper) (a : Step) : (a.act x).Proper := by
  obtain h | ⟨k, h⟩ := h
  · cases ha : a.reads with
    | false => exact .inl (unread_act h ha)
    | true =>
      rw [act_of_reads ha]
      exact .inr ⟨_, h.readFrom_scanAll⟩
  · rw [act_of_complete h.toComplete]
    exact .inr ⟨k, h⟩

namespace Session

variable {s : Session} {name : Text} {w w' : Watched} {a : Step}

/-- A step on a scanner that names a sink which is not there fails. -/
theorem step_of_not_offers (ha : a.scanner? = some name) (hw : s.scanners.find? name = some w)
    (h : ¬ s.Offers name a) : (s.step a).1 = s := by
  cases a with
  | run _ sink =>
    cases ha
    obtain ⟨k, rfl, hk⟩ : ∃ k, sink = some k ∧ s.sinks.find? k = none := by
      simpa [Offers, Step.scanner?, Step.sink?] using h
    have herror : s.effect (.run name (some k)) = .error (.unknownName k) := by
      rw [effect, runScanner, find_eq_ok hw, sinkNamed, find, hk]
      rfl
    rw [step_of_error herror]
  | newReporter _ _ _ | report _ _ | readDiagnostics _ | clear _ | printErrors _ | setLevel _ _
  | newScanner _ _ _ | newSink _ _ | receive _ _ | sinkState _ | runSource _ _ _
  | scanString _ => cases ha
  | _ => exact absurd (offers_of_sink?_eq_none ha rfl) h

theorem step_newScanner (s : Session) (name source : Text) (reporter : Option Text) :
    (s.step (.newScanner name source reporter)).1 = s ∨ ∃ number,
      (s.step (.newScanner name source reporter)).1 =
        s.setScanner name ⟨.ofSource source, number⟩ := by
  have heffect := effect_newScanner s name source reporter
  cases hn : s.reporterNumber reporter with
  | error e =>
    rw [hn] at heffect
    exact .inl (by rw [step_of_error heffect])
  | ok number =>
    rw [hn] at heffect
    exact .inr ⟨number, by rw [step_of_effect heffect]⟩

theorem scanner_step (h : (s.step a).1.scanners.find? name = some w') :
    (∃ source, w'.scanner = .ofSource source) ∨
      ∃ w, s.scanners.find? name = some w ∧
        (w'.scanner = w.scanner ∨ w'.scanner = a.act w.scanner) := by
  have hsame (hs : (s.step a).1 = s) : ∃ w, s.scanners.find? name = some w ∧
      (w'.scanner = w.scanner ∨ w'.scanner = a.act w.scanner) := ⟨w', hs ▸ h, .inl rfl⟩
  by_cases ha : a.scanner? = some name
  · refine .inr ?_
    cases hw : s.scanners.find? name with
    | none => exact hw ▸ hsame (by rw [step_of_error (effect_of_unknown ha hw)])
    | some w =>
      by_cases hoffers : s.Offers name a
      · rw [(step_on hw hoffers).scanner] at h
        cases h
        exact ⟨w, rfl, .inr rfl⟩
      · exact hw ▸ hsame (step_of_not_offers ha hw hoffers)
  · by_cases hnew : a.newScanner? = some name
    · cases a with
      | newScanner other source reporter =>
        cases hnew
        obtain hs | ⟨number, hs⟩ := step_newScanner s name source reporter
        · exact .inr (hsame hs)
        · rw [hs, find?_setScanner] at h
          cases h
          exact .inl ⟨source, rfl⟩
      | _ => cases hnew
    · rw [(carries s a).scanner name ha hnew] at h
      exact .inr ⟨w', h, .inl rfl⟩

/-- A scanner that has read its source stays as it is. -/
theorem step_of_complete (hw : s.scanners.find? name = some w) (h : w.scanner.Complete)
    (hnew : a.newScanner? ≠ some name) : (s.step a).1.scanners.find? name = some w := by
  by_cases ha : a.scanner? = some name
  · by_cases hoffers : s.Offers name a
    · rw [(step_on hw hoffers).scanner, Step.act_of_complete h]
    · rw [step_of_not_offers ha hw hoffers, hw]
  · rw [(carries s a).scanner name ha hnew, hw]

theorem after_of_complete {steps : List Step} (hw : s.scanners.find? name = some w)
    (h : w.scanner.Complete) (hnew : ∀ a ∈ steps, a.newScanner? ≠ some name) :
    (s.after steps).scanners.find? name = some w := by
  induction steps generalizing s with
  | nil => exact hw
  | cons a steps ih =>
    have hstep := step_of_complete hw h (hnew a (List.mem_cons_self ..))
    exact ih hstep fun b hb => hnew b (.tail _ hb)

theorem proper_after (steps : List Step) (h : (after {} steps).scanners.find? name = some w) :
    w.scanner.Proper := by
  -- from the end: the last step made the scanner, moved it or left it alone
  induction steps using List.reverseRecOn generalizing name w with
  | nil => cases h
  | append_singleton steps a ih =>
    rw [after, List.foldl_append] at h
    obtain ⟨source, hsource⟩ | ⟨v, hv, hw | hw⟩ := scanner_step h
    · exact hsource ▸ Scanner.proper_ofSource source
    · exact hw ▸ ih hv
    · exact hw ▸ Step.proper_act (ih hv) a

end Session

end LoxLex
