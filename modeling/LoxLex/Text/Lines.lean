import LoxLex.Text.Basic

/-!
# Lines of input

`lines` cuts a text into its lines. A line feed, a carriage return and the pair of both end a line
and belong to none; a last line without an end counts if it is not empty.
-/

namespace LoxLex.Text

/-- The lines of `t` when the characters `before`, in reverse, stand before it on its first line. -/
def linesAfter (before : Text) : Text → List Text
  | [] => if before = [] then [] else [before.reverse]
  | '\r' :: '\n' :: rest => before.reverse :: linesAfter [] rest
  | c :: rest =>
    if c = '\n' ∨ c = '\r' then before.reverse :: linesAfter [] rest
    else linesAfter (c :: before) rest

def lines (t : Text) : List Text := linesAfter [] t

end LoxLex.Text
