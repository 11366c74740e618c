import LoxLex.Piece.Basic

/-!
# Cutting a text into pieces

`Lead.of` tells from a character what kind of piece it starts. `split c rest` is the first piece of
`c :: rest`, as long as its kind allows, with the text after it, and `pieces` cuts a whole text.
`split_text` and `pieces_text` say that nothing is lost.
-/

namespace LoxLex

/-- What a piece can start with. -/
inductive Lead where
  | mark (s : Symbol)
  | operator (alone withEqual : Symbol)
  | slash
  | blank
  | quote
  | digit
  | letter
  | foreign
  deriving DecidableEq

/-- Letters are the ASCII letters and the underscore. -/
def isLetter (c : Char) : Bool := c.isAlpha || c = '_'

def isWordCharacter (c : Char) : Bool := isLetter c || c.isDigit

def isBlank (c : Char) : Bool := c = ' ' || c = '\t' || c = '\r' || c = '\n'

def Lead.of (c : Char) : Lead :=
  match Symbol.marks.lookup c, Symbol.operators.lookup c with
  | some s, _ => .mark s
  | none, some (alone, withEqual) => .operator alone withEqual
  | none, none =>
    if c = '/' then .slash
    else if isBlank c then .blank
    else if c = '"' then .quote
    else if c.isDigit then .digit
    else if isLetter c then .letter
    else .foreign

namespace Lead

theorem mem_marks {c : Char} {s : Symbol} (h : of c = .mark s) : (c, s) ∈ Symbol.marks := by
  unfold of at h
  split at h
  · next s' hs =>
    cases h
    obtain ⟨l₁, l₂, e, -⟩ := List.lookup_eq_some_iff.mp hs
    simp [e]
  · cases h
  · repeat' split at h
    all_goals cases h

theorem mem_operators {c : Char} {alone withEqual : Symbol} (h : of c = .operator alone withEqual) :
    (c, alone, withEqual) ∈ Symbol.operators := by
  unfold of at h
  split at h
  · cases h
  · next hs =>
    cases h
    obtain ⟨l₁, l₂, e, -⟩ := List.lookup_eq_some_iff.mp hs
    simp [e]
  · repeat' split at h
    all_goals cases h

theorem spelling_of_mark {c : Char} {s : Symbol} (h : of c = .mark s) : s.spelling = [c] := by
  have key : ∀ entry ∈ Symbol.marks, entry.2.spelling = [entry.1] := by decide
  exact key _ (mem_marks h)

theorem spelling_of_operator {c : Char} {alone withEqual : Symbol}
    (h : of c = .operator alone withEqual) :
    alone.spelling = [c] ∧ withEqual.spelling = [c, '='] := by
  have key : ∀ entry ∈ Symbol.operators,
      entry.2.1.spelling = [entry.1] ∧ entry.2.2.spelling = [entry.1, '='] := by decide
  exact key _ (mem_operators h)

theorem eq_slash {c : Char} (h : of c = .slash) : c = '/' := by
  unfold of at h
  repeat' split at h
  all_goals first | assumption | cases h

theorem eq_quote {c : Char} (h : of c = .quote) : c = '"' := by
  unfold of at h
  repeat' split at h
  all_goals first | assumption | cases h

end Lead

namespace Piece

/-- The rest of a number after its whole digits: a point belongs to it only with a digit behind. -/
def splitFraction : Text → Text × Text
  | '.' :: d :: rest =>
    if d.isDigit then (d :: rest.takeWhile Char.isDigit, rest.dropWhile Char.isDigit)
    else ([], '.' :: d :: rest)
  | rest => ([], rest)

def splitNumeral (c : Char) (rest : Text) : Numeral × Text :=
  let (fraction, after) := splitFraction (rest.dropWhile Char.isDigit)
  (⟨c :: rest.takeWhile Char.isDigit, fraction⟩, after)

/-- A string goes to the next double quote, or to the end of the text if there is none. -/
def splitQuoted (rest : Text) : Piece × Text :=
  match rest.dropWhile (· ≠ '"') with
  | [] => (.unclosed rest, [])
  | _ :: after => (.quoted (rest.takeWhile (· ≠ '"')), after)

def split (c : Char) (rest : Text) : Piece × Text :=
  match Lead.of c with
  | .mark s => (.symbol s, rest)
  | .operator alone withEqual =>
    match rest with
    | '=' :: after => (.symbol withEqual, after)
    | _ => (.symbol alone, rest)
  | .slash =>
    match rest with
    | '/' :: after => (.comment (after.takeWhile (· ≠ '\n')), after.dropWhile (· ≠ '\n'))
    | _ => (.symbol .slash, rest)
  | .blank => (.blank c, rest)
  | .quote => splitQuoted rest
  | .digit => let (n, after) := splitNumeral c rest; (.numeral n, after)
  | .letter => (.word (c :: rest.takeWhile isWordCharacter), rest.dropWhile isWordCharacter)
  | .foreign => (.foreign c, rest)

theorem splitFraction_text (t : Text) :
    (if (splitFraction t).1 = [] then [] else '.' :: (splitFraction t).1) ++ (splitFraction t).2 =
      t := by
  unfold splitFraction
  split
  · split <;> simp
  · simp

theorem splitNumeral_text (c : Char) (rest : Text) :
    (splitNumeral c rest).1.text ++ (splitNumeral c rest).2 = c :: rest := by
  have h := splitFraction_text (rest.dropWhile Char.isDigit)
  simp only [splitNumeral, Numeral.text]
  split at h <;> simp_all [List.takeWhile_append_dropWhile]

theorem splitQuoted_text (rest : Text) :
    (splitQuoted rest).1.text ++ (splitQuoted rest).2 = '"' :: rest := by
  unfold splitQuoted
  split
  · simp [text]
  · next x after h =>
    have hx : x = '"' := by
      have := List.head?_dropWhile_not (· ≠ '"') rest
      simp_all
    have := List.takeWhile_append_dropWhile (p := (· ≠ '"')) (l := rest)
    simp_all [text]

theorem split_text (c : Char) (rest : Text) : (split c rest).1.text ++ (split c rest).2 = c :: rest := by
  unfold split
  split
  · next s h => simp [text, Lead.spelling_of_mark h]
  · next alone withEqual h =>
    have := Lead.spelling_of_operator h
    split <;> simp [text, this]
  · next h =>
    split <;> simp [text, Lead.eq_slash h, Symbol.spelling, List.takeWhile_append_dropWhile]
  · rfl
  · next h => rw [splitQuoted_text, Lead.eq_quote h]
  · exact splitNumeral_text c rest
  · simp [text, List.takeWhile_append_dropWhile]
  · rfl

theorem length_split (c : Char) (rest : Text) : (split c rest).2.length ≤ rest.length := by
  have h := congrArg List.length (split_text c rest)
  have : 0 < (split c rest).1.text.length := by
    unfold split
    split
    · next s h => simp [text, Lead.spelling_of_mark h]
    · next h =>
      have := Lead.spelling_of_operator h
      split <;> simp [text, this]
    · split <;> simp [text, Symbol.spelling]
    · simp [text]
    · unfold splitQuoted
      split <;> simp [text]
    · by_cases hf : (splitFraction (rest.dropWhile Char.isDigit)).1 = [] <;>
        simp [splitNumeral, text, Numeral.text, hf]
    · simp [text]
    · simp [text]
  simp only [List.length_append, List.length_cons] at h
  omega

end Piece

def pieces : Text → List Piece
  | [] => []
  | c :: rest =>
    let first := Piece.split c rest
    first.1 :: pieces first.2
  termination_by t => t.length
  decreasing_by have := Piece.length_split c rest; simp only [List.length_cons]; omega

theorem pieces_text (t : Text) : (pieces t).flatMap Piece.text = t := by
  fun_induction pieces t with
  | case1 => rfl
  | case2 c rest first ih => simp only [List.flatMap_cons, ih]; exact Piece.split_text c rest

end LoxLex
