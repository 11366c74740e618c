import LoxLex.Text.Basic

/-!
# Output

What is written is a list of `Writing`s in the order in which they happen, each to one `Stream`.
`Output.on` is the text that a single stream receives.
-/

namespace LoxLex

inductive Stream where
  | standardOutput
  | standardError
  | memory (name : Text)
  deriving DecidableEq

structure Writing where
  stream : Stream
  text : Text
  deriving DecidableEq

abbrev Output := List Writing

namespace Output

def on (stream : Stream) (o : Output) : Text :=
  (o.filter fun w => w.stream = stream).flatMap Writing.text

/-- Each text on a line of its own. -/
def linesTo (stream : Stream) (texts : List Text) : Output :=
  texts.map fun t => ⟨stream, t ++ ['\n']⟩

@[simp] theorem on_append (stream : Stream) (a b : Output) :
    on stream (a ++ b) = on stream a ++ on stream b := by
  simp [on]

theorem on_linesTo (stream target : Stream) (texts : List Text) :
    on stream (linesTo target texts) =
      if target = stream then texts.flatMap (· ++ ['\n']) else [] := by
  induction texts with
  | nil => simp [linesTo, on]
  | cons t ts ih =>
    rw [linesTo, List.map_cons, ← linesTo]
    by_cases h : target = stream <;> simp_all [on]

/-- The streams in the order in which they are first written to. -/
def streams (o : Output) : List Stream := (o.map Writing.stream).eraseDups

end Output

end LoxLex
