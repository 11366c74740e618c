import LoxLex.Proofs.Session.Traffic

/-!
# Transcripts

`collect` goes through the steps of a session and puts together what each of them comes to. The
`transcript` is what the steps write, with the writer of every line: without the writers it is the
output of the session (`map_writing_transcript`).
-/

namespace LoxLex

namespace Session

variable {α β : Type} {s : Session} {steps : List Step}

/-- What `f` makes of each step, with the session as the step finds it. -/
def collect (s : Session) (f : Session → Step → List α) : List Step → List α
  | [] => []
  | a :: rest => f s a ++ (s.step a).1.collect f rest

theorem filterMap_collect (f : Session → Step → List α) (g : α → Option β) :
    (s.collect f steps).filterMap g = s.collect (fun s a => (f s a).filterMap g) steps := by
  induction steps generalizing s with
  | nil => rfl
  | cons a steps ih => rw [collect, List.filterMap_append, ih, collect]

theorem flatMap_replies (g : Reply → List α) :
    (s.replies steps).flatMap g = s.collect (fun s a => g (s.step a).2) steps := by
  induction steps generalizing s with
  | nil => rfl
  | cons a steps ih => rw [replies, List.flatMap_cons, ih, collect]

theorem collect_congr {f g : Session → Step → List α} (h : ∀ s a, f s a = g s a) :
    s.collect f steps = s.collect g steps := by
  rw [show f = g from funext fun s => funext (h s)]

/-! ## Writers -/

inductive Writer where
  | reporter (number : Option Nat)
  | sink (name : Option Text)
  deriving DecidableEq

structure Entry where
  writer : Writer
  writing : Writing

def signed (writer : Writer) (o : Output) : List Entry := o.map fun w => ⟨writer, w⟩

/-- The reporter writes first, and then the sink. -/
def entries (s : Session) (a : Step) : List Entry :=
  signed (.reporter (s.traffic a).reporter)
      ((s.reporterAt (s.traffic a).reporter).written (s.traffic a).requests) ++
    signed (.sink (s.traffic a).sink)
      ((s.sinkAt (s.traffic a).sink).receive (s.traffic a).tokens).2

def transcript (s : Session) (steps : List Step) : List Entry := s.collect entries steps

def writtenBy (writer : Writer) (es : List Entry) : Output :=
  es.filterMap fun e => if e.writer = writer then some e.writing else none

theorem map_writing_signed (writer : Writer) (o : Output) :
    (signed writer o).map Entry.writing = o := by
  rw [signed, List.map_map]
  exact List.map_id o

theorem map_writing_transcript (s : Session) (steps : List Step) :
    (s.transcript steps).map Entry.writing = (s.replies steps).flatMap Reply.output := by
  rw [transcript, flatMap_replies, ← List.filterMap_eq_map, filterMap_collect]
  refine collect_congr fun s a => ?_
  rw [List.filterMap_eq_map, (carries s a).output, entries, List.map_append, map_writing_signed,
    map_writing_signed]

theorem writtenBy_signed (writer other : Writer) (o : Output) :
    writtenBy writer (signed other o) = if other = writer then o else [] := by
  rw [writtenBy, signed, List.filterMap_map]
  by_cases h : other = writer
  · simp only [Function.comp_def, h, if_true, List.filterMap_some]
  · simp only [Function.comp_def, h, if_false, List.filterMap_none]

theorem writtenBy_transcript (writer : Writer) :
    writtenBy writer (s.transcript steps) =
      s.collect (fun s a => writtenBy writer (s.entries a)) steps := filterMap_collect ..

theorem writtenBy_entries (writer : Writer) (a : Step) :
    writtenBy writer (s.entries a) =
      (if .reporter (s.traffic a).reporter = writer then
        (s.reporterAt (s.traffic a).reporter).written (s.traffic a).requests else []) ++
      if .sink (s.traffic a).sink = writer then
        ((s.sinkAt (s.traffic a).sink).receive (s.traffic a).tokens).2 else [] := by
  rw [← writtenBy_signed, ← writtenBy_signed, writtenBy, writtenBy, writtenBy,
    ← List.filterMap_append, entries]

theorem writtenBy_reporter {n : Nat} {r : Reporter} (h : s.reporters[n]? = some r) (a : Step) :
    writtenBy (.reporter (some n)) (s.entries a) = r.written (s.requestsTo n a) := by
  by_cases hn : (s.traffic a).reporter = some n
  · simp [writtenBy_entries, requestsTo, hn, reporterAt_of_getElem? h]
  · simp [writtenBy_entries, requestsTo, hn, Reporter.written]

theorem writtenBy_sink (sink : Option Text) (a : Step) :
    writtenBy (.sink sink) (s.entries a) = ((s.sinkAt sink).receive (s.handedTo sink a)).2 := by
  by_cases hn : (s.traffic a).sink = sink
  · simp [writtenBy_entries, handedTo, hn]
  · simp [writtenBy_entries, handedTo, hn, receive_nil]

end Session

end LoxLex
