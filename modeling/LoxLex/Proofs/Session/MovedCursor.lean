import LoxLex.Proofs.Scanner.Cursor
import LoxLex.Proofs.Session.Isolation

/-!
# Scans from a moved cursor

The steps before the scan only move the cursor of a scanner, and wherever they leave it the scan is
that of the rest of the source on its own (`scan_from_cursor`): the offsets are those of the whole
source, and the line breaks before the cursor are not counted.
-/

namespace LoxLex

/-- What a step answers that reads the source and finds `r`. -/
def Scan.answer (r : Scan) : Step → Answer
  | .scanTokens _ => .tokens r.tokens
  | _ => .scan r

theorem Step.reading_eq (x : Scanner) (a : Step) : a.reading x = x.result.answer a := by
  cases a <;> rfl

namespace Session

variable {s : Session} {name : Text} {number : Option Nat} {steps : List Step}

/-- The scanner is new in `s`, and no step on it among `steps` reads the source yet. -/
theorem scan_from_cursor {source : Text}
    (hnew : s.scanners.find? name = some ⟨.ofSource source, number⟩)
    (hsteps : ∀ a ∈ steps, a.newScanner? ≠ some name ∧ (a.scanner? = some name → a.reads = false)) :
    ∃ x, (s.after steps).scanners.find? name = some ⟨x, number⟩ ∧ x.current ≤ source.length ∧
      let fresh := (Scanner.ofSource (source.drop x.current)).scanAll.1.result
      ∀ a, (s.after steps).Offers name a → a.reads = true →
        ((s.after steps).step a).2.result = .ok ((fresh.behind x.current).answer a) ∧
        ∀ n, number = some n → (s.after steps).requestsTo n a = fresh.diagnostics.map .report := by
  have hserves : s.Serves name steps := serves_of_not_reads fun a ha => (hsteps a ha).2
  obtain ⟨hscanner, -⟩ := after_serves hnew (fun a ha => (hsteps a ha).1) hserves
  have hon : ∀ a ∈ Step.on name steps, a.reads = false := by
    intro a ha
    obtain ⟨hmem, hname⟩ := List.mem_filter.mp ha
    exact (hsteps a hmem).2 (by simpa using hname)
  have hunread := Step.unread_foldl_act (Scanner.unread_ofSource source) hon
  have hsource : ((Step.on name steps).foldl Step.act (.ofSource source)).source = source :=
    Step.source_foldl_act _ _
  generalize (Step.on name steps).foldl Step.act (.ofSource source) = x at *
  have hrest : x.remaining = source.drop x.current := by
    rw [Scanner.remaining, hsource]
  refine ⟨x, hscanner, hsource ▸ hunread.current, fun a ha hreads => ?_⟩
  obtain ⟨hresult, hfound⟩ := hunread.scanAll_eq
  rw [hrest, ← result_scanAll_ofSource] at hresult hfound
  refine ⟨?_, fun n hn => ?_⟩
  · rw [(step_on hscanner ha).result, Step.result_of_reads hreads, Step.act_of_reads hreads,
      Step.reading_eq, hresult]
  · rw [requestsTo_of_offers hscanner ha, if_pos hn, Step.found, if_pos hreads, hfound]

/-- The cursor goes into a string behind its line break, and another scanner reads in between. The
closing quote opens a string that has no end. -/
theorem scan_from_cursor_in_string :
    let source : Text := ['"', '\n', 'a', '"', '~']
    let s := Session.after {} [.newReporter ['r'] Level.error .standardError,
      .newScanner ['x'] source (some ['r']), .newScanner ['y'] ['@'] (some ['r'])]
    let steps : List Step := [.advance ['x'], .peek ['x'], .scan ['y'], .accept ['x'] ['\n']]
    s.scanners.find? ['x'] = some ⟨.ofSource source, some 0⟩ ∧
      (∀ a ∈ steps, a.newScanner? ≠ some ['x'] ∧ (a.scanner? = some ['x'] → a.reads = false)) ∧
      ((s.after steps).step (.scan ['x'])).2.result = .ok (.scan {
        tokens := [⟨.identifier, ['a'], .none, 1, 2⟩, ⟨.endOfInput, [], .none, 1, 5⟩]
        diagnostics := [⟨1, "Unterminated string.".toList, some "L002".toList⟩]
        line := 1 }) := by
  intro source s steps
  have hnew : s.scanners.find? ['x'] = some ⟨.ofSource source, some 0⟩ := rfl
  have hsteps : ∀ a ∈ steps,
      a.newScanner? ≠ some ['x'] ∧ (a.scanner? = some ['x'] → a.reads = false) := by decide
  obtain ⟨x, hx, -, hscan⟩ := scan_from_cursor hnew hsteps
  have hcurrent : x.current = 2 := by
    have hfound : (s.after steps).scanners.find? ['x'] =
        some ⟨{ source, current := 2 }, some 0⟩ := rfl
    rw [hfound] at hx
    cases hx
    rfl
  obtain ⟨hresult, -⟩ := hscan (.scan ['x']) ⟨rfl, nofun⟩ rfl
  refine ⟨hnew, hsteps, hresult.trans ?_⟩
  rw [hcurrent]
  decide +kernel

end Session

end LoxLex
