import Mathlib.Data.List.DropRight
import LoxLex.Reporter

/-!
# The log of a reporter

A reporter is asked one thing after the other, and a `Log` is the list of what it was asked. What
the reporter holds (`Log.held`), how much it writes (`Log.level`) and what it has shown (`Log.shown`)
can be read off the log: `handled_eq` and `written_eq` say that a new reporter does just that.
-/

namespace LoxLex

/-- What a reporter can be asked. -/
inductive Request where
  | report (d : Diagnostic)
  | clear
  | setLevel (level : Level)
  | print
  deriving DecidableEq

namespace Request

def diagnostic? : Request → Option Diagnostic
  | report d => some d
  | _ => none

def level? : Request → Option Level
  | setLevel level => some level
  | _ => none

end Request

abbrev Log := List Request

namespace Log

/-- The diagnostics that were reported after the last `clear`, all of them if there is none. -/
def held (log : Log) : List Diagnostic :=
  (log.rtakeWhile (· ≠ .clear)).filterMap Request.diagnostic?

/-- The last level that was set, and the `first` one before that. -/
def level (first : Level) (log : Log) : Level := (log.filterMap Request.level?).getLast?.getD first

/-- What is shown when this comes `before` the request. -/
def shownAt (first : Level) (before : Log) : Request → List Diagnostic
  | .report d => if before.level first = Level.silent then [] else [d]
  | .print => before.held
  | .clear | .setLevel _ => []

def shownAfter (first : Level) (before : Log) : Log → List Diagnostic
  | [] => []
  | q :: later => shownAt first before q ++ shownAfter first (before ++ [q]) later

/-- The diagnostics that have been shown, each as often as it was. -/
def shown (first : Level) (log : Log) : List Diagnostic := shownAfter first [] log

variable {first : Level} {log : Log}

theorem held_concat (log : Log) (q : Request) :
    held (log ++ [q]) = if q = .clear then [] else held log ++ q.diagnostic?.toList := by
  by_cases hq : q = .clear
  · rw [if_pos hq, held, List.rtakeWhile_concat_neg _ _ _ (by simpa using hq)]
    rfl
  · rw [if_neg hq, held, List.rtakeWhile_concat_pos _ _ _ (by simpa using hq),
      List.filterMap_append, held]
    cases q <;> rfl

theorem level_concat (log : Log) (q : Request) :
    level first (log ++ [q]) = q.level?.getD (level first log) := by
  rw [level, List.filterMap_append]
  cases q with
  | setLevel level => simp [Request.level?]
  | report d | clear | print => simp [Request.level?, Log.level]

end Log

namespace Reporter

def handle (r : Reporter) : Request → Reporter × Output
  | .report d => r.report [d]
  | .clear => (r.clear, [])
  | .setLevel level => ({ r with level }, [])
  | .print => (r, r.printErrors)

/-- The reporter once it has done what it was asked. -/
def handled (r : Reporter) (log : Log) : Reporter := log.foldl (fun r q => (r.handle q).1) r

/-- What the reporter writes when it is asked all this. -/
def written (r : Reporter) : Log → Output
  | [] => []
  | q :: later => (r.handle q).2 ++ (r.handle q).1.written later

variable {r : Reporter}

theorem handled_append (log more : Log) : r.handled (log ++ more) = (r.handled log).handled more :=
  List.foldl_append

theorem written_append (log more : Log) :
    r.written (log ++ more) = r.written log ++ (r.handled log).written more := by
  induction log generalizing r with
  | nil => rfl
  | cons q log ih => rw [List.cons_append, written, ih, ← List.append_assoc]; rfl

/-- Diagnostics that come together are reported one by one. -/
theorem handled_reports (r : Reporter) (ds : List Diagnostic) :
    r.handled (ds.map .report) = (r.report ds).1 := by
  induction ds generalizing r with
  | nil => simp [handled, report]
  | cons d ds ih =>
    rw [List.map_cons, handled, List.foldl_cons, ← handled, ih]
    simp [handle, report]

theorem written_reports (r : Reporter) (ds : List Diagnostic) :
    r.written (ds.map .report) = (r.report ds).2 := by
  induction ds generalizing r with
  | nil => simp [written, report, write, Output.linesTo]
  | cons d ds ih =>
    rw [List.map_cons, written, ih]
    by_cases h : r.level = Level.silent <;> simp [handle, report, h, write, Output.linesTo]

theorem written_reports_eq (r : Reporter) (ds : List Diagnostic) :
    r.written (ds.map .report) = Output.linesTo r.stream
      (if r.level = Level.silent then [] else ds.map Diagnostic.display) := by
  rw [written_reports, report]
  split <;> rfl

theorem handled_eq (level : Level) (stream : Stream) (log : Log) :
    handled { level, stream } log =
      { level := log.level level, stream, diagnostics := log.held } := by
  -- from the end, as `held` looks back to the last `clear`
  induction log using List.reverseRecOn with
  | nil => rfl
  | append_singleton log q ih =>
    rw [handled_append, ih, Log.held_concat, Log.level_concat]
    cases q <;> simp [handled, handle, report, clear, Request.level?, Request.diagnostic?]

theorem written_after (level : Level) (stream : Stream) (before log : Log) :
    (handled { level, stream } before).written log =
      Output.linesTo stream ((before.shownAfter level log).map Diagnostic.display) := by
  induction log generalizing before with
  | nil => rfl
  | cons q log ih =>
    have hstep : ((handled { level, stream } before).handle q).2 =
        Output.linesTo stream ((Log.shownAt level before q).map Diagnostic.display) := by
      rw [handled_eq]
      cases q with
      | report d =>
        by_cases h : before.level level = Level.silent <;>
          simp [handle, report, write, Log.shownAt, h, Output.linesTo]
      | print => rfl
      | clear | setLevel _ => rfl
    have hnext : ((handled { level, stream } before).handle q).1 =
        handled { level, stream } (before ++ [q]) := by
      rw [handled_append]
      rfl
    rw [written, hstep, hnext, ih, Log.shownAfter]
    simp only [Output.linesTo, List.map_append]

theorem written_eq (level : Level) (stream : Stream) (log : Log) :
    written { level, stream } log =
      Output.linesTo stream ((log.shown level).map Diagnostic.display) :=
  written_after level stream [] log

end Reporter

end LoxLex
