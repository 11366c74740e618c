import LoxLex.Proofs.Grammar.Lexeme
import LoxLex.Proofs.Scan.Placed

/-!
# Reading character by character

`read?` reads the piece at the cursor with nothing but the movements of the cursor: `advance?` takes
one character and fails behind the last one, `accept` takes an expected one, and `peek` and
`peekNext` see the end mark where the source has ended. `read?_eq_step` says that before the end
this never fails, whatever the source holds, and comes to what `step` reads in one go.
-/

namespace LoxLex

theorem Numeral.text_eq (n : Numeral) :
    n.whole ++ (if n.fraction = [] then [] else '.' :: n.fraction) = n.text := by
  rw [text]
  split <;> simp

namespace Scanner

/-! ## The movements of a round -/

theorem lt_of_advance? {s next : Scanner} {c : Char} (h : s.advance? = some (c, next)) :
    s.current < s.source.length ∧ next = { s with current := s.current + 1 } := by
  obtain ⟨d, hd, e⟩ := Option.map_eq_some_iff.mp h
  obtain ⟨hlt, -⟩ := List.getElem?_eq_some_iff.mp hd
  cases e
  exact ⟨hlt, rfl⟩

/-- Takes one character after the other as long as `more` holds. A character `c` is worth `lines c`
line ends. -/
def advanceWhile (more : Scanner → Bool) (lines : Char → Nat) (s : Scanner) : Option Scanner :=
  if more s then
    match _h : { s with line := s.line + lines s.peek }.advance? with
    | some (_, next) => next.advanceWhile more lines
    | none => none
  else some s
  termination_by s.source.length - s.current
  decreasing_by
    obtain ⟨hlt, rfl⟩ := lt_of_advance? _h
    dsimp only at hlt ⊢
    omega

def slice (s : Scanner) (first last : Nat) : Text := (s.source.take last).drop first

/-- What has been taken since the piece began. -/
def lexeme (s : Scanner) : Text := s.slice s.start s.current

def addToken (s : Scanner) (kind : Kind) (literal : Literal) : Scanner :=
  { s with tokens := s.tokens ++ [⟨kind, s.lexeme, literal, s.startLine, s.start⟩] }

def addError (s : Scanner) (fault : Fault) : Scanner :=
  { s with errors := s.errors ++ [fault.diagnostic s.line] }

/-- The symbol with the equal sign behind it is read if there is one. -/
def readOperator (s : Scanner) (alone withEqual : Symbol) : Scanner :=
  let (accepted, s) := s.accept ['=']
  s.addToken (.symbol (if accepted then withEqual else alone)) .none

def readComment? (s : Scanner) : Option Scanner :=
  s.advanceWhile (fun s => s.peek ≠ '\n' && !s.isAtEnd) fun _ => 0

def readSlash? (s : Scanner) : Option Scanner :=
  let (accepted, s) := s.accept ['/']
  if accepted then s.readComment? else some (s.addToken (.symbol .slash) .none)

def readString? (s : Scanner) : Option Scanner := do
  let s ← s.advanceWhile (fun s => s.peek ≠ '"' && !s.isAtEnd) fun c => Text.newlines [c]
  if s.isAtEnd then return s.addError .unterminatedString
  else
    let (_, s) ← s.advance?
    return s.addToken .string (.text (s.slice (s.start + 1) (s.current - 1)))

def readDigits? (s : Scanner) : Option Scanner :=
  s.advanceWhile (fun s => s.peek.isDigit) fun _ => 0

/-- A point is taken only if there is a digit behind it. -/
def readFraction? (s : Scanner) : Option Scanner := do
  if s.peek = '.' && s.peekNext.isDigit then
    let (_, s) ← s.advance?
    s.readDigits?
  else return s

def readNumber? (s : Scanner) : Option Scanner := do
  let s ← s.readDigits?
  let s ← s.readFraction?
  return s.addToken .number (.number (Grammar.decimalValue s.lexeme))

def readWord? (s : Scanner) : Option Scanner := do
  let s ← s.advanceWhile (fun s => isWordCharacter s.peek) fun _ => 0
  return s.addToken (Kind.ofWord s.lexeme) .none

/-- A piece begins at the cursor. -/
def begun (s : Scanner) : Scanner := { s with start := s.current, startLine := s.line }

/-- One round of the scan; there is no result if a character is asked for behind the last one. -/
def read? (s : Scanner) : Option Scanner := do
  let (c, s) ← s.begun.advance?
  match Lead.of c with
  | .mark kind => return s.addToken (.symbol kind) .none
  | .operator alone withEqual => return s.readOperator alone withEqual
  | .slash => s.readSlash?
  | .blank => return if c = '\n' then { s with line := s.line + 1 } else s
  | .quote => s.readString?
  | .digit => s.readNumber?
  | .letter => s.readWord?
  | .foreign => return s.addError (.unexpectedCharacter c)

/-! ## What is left of the source -/

/-- The scanner behind the text `w`, which comes next. -/
def passing (s : Scanner) (w : Text) : Scanner :=
  { s with current := s.current + w.length, line := s.line + Text.newlines w }

variable {s : Scanner} {c : Char} {w rest : Text}

theorem passing_append (s : Scanner) (v w : Text) :
    s.passing (v ++ w) = (s.passing v).passing w := by
  simp only [passing, List.length_append, Text.newlines_append, Nat.add_assoc]

theorem remaining_passing (h : s.remaining = w ++ rest) : (s.passing w).remaining = rest := by
  have : (s.passing w).remaining = s.remaining.drop w.length := List.drop_drop.symm
  rw [this, h, List.drop_left]

theorem getElem?_source (s : Scanner) (k : Nat) : s.source[s.current + k]? = s.remaining[k]? := by
  rw [remaining, List.getElem?_drop]

theorem peek_eq (s : Scanner) : s.peek = s.remaining.head?.getD endMark := by
  rw [peek, List.head?_eq_getElem?, ← getElem?_source, Nat.add_zero]

theorem peekNext_eq (s : Scanner) : s.peekNext = s.remaining.tail.head?.getD endMark := by
  rw [peekNext, List.head?_eq_getElem?, List.getElem?_tail, ← getElem?_source]

theorem isAtEnd_eq (s : Scanner) : s.isAtEnd = s.remaining.isEmpty := by
  rw [isAtEnd, remaining, Bool.eq_iff_iff, decide_eq_true_iff, List.isEmpty_iff,
    List.drop_eq_nil_iff]

theorem advance?_eq (h : s.remaining = c :: rest) :
    s.advance? = some (c, { s with current := s.current + 1 }) := by
  have hc : s.source[s.current]? = some c := by
    rw [← Nat.add_zero s.current, getElem?_source, h]
    rfl
  rw [advance?, hc]
  rfl

theorem advance?_eq_passing (h : s.remaining = c :: rest) (hc : c ≠ '\n') :
    s.advance? = some (c, s.passing [c]) := by
  rw [advance?_eq h, passing, Text.newlines_singleton_of_ne hc]
  rfl

theorem accept_eq (hc : c ≠ '\n') :
    s.accept [c] = if s.remaining.head? = some c then (true, s.passing [c]) else (false, s) := by
  rw [List.head?_eq_getElem?, ← getElem?_source, Nat.add_zero, accept, passing,
    Text.newlines_singleton_of_ne hc]
  cases s.source[s.current]? with
  | none => rfl
  | some d => simp [eq_comm]

theorem slice_eq {v : Text} (h : s.remaining = v ++ (w ++ rest)) :
    s.slice (s.current + v.length) (s.current + v.length + w.length) = w := by
  rw [slice, List.drop_take, ← List.drop_drop, ← remaining, h, List.drop_left,
    Nat.add_sub_cancel_left, List.take_left]

theorem lexeme_passing (h : s.remaining = w ++ rest) : (s.begun.passing w).lexeme = w :=
  slice_eq (v := []) h

/-! ## Runs of characters -/

/-- A loop whose test holds of the characters in `p`, and not at the end, takes all of them that
come next. -/
theorem advanceWhile_eq {more : Scanner → Bool} {lines : Char → Nat} {p : Char → Bool}
    (hmore : ∀ s, more s = s.remaining.head?.any p)
    (hlines : ∀ c, p c = true → lines c = Text.newlines [c]) (s : Scanner) :
    s.advanceWhile more lines = some (s.passing (s.remaining.takeWhile p)) := by
  induction h : s.remaining generalizing s with
  | nil =>
    rw [advanceWhile, hmore, h]
    rfl
  | cons c rest ih =>
    have hpeek : s.peek = c := by rw [peek_eq, h]; rfl
    by_cases hc : p c = true
    · have hnext : { s with line := s.line + lines s.peek }.advance? = some (c, s.passing [c]) := by
        rw [advance?_eq (s := { s with line := s.line + lines s.peek }) h, hpeek, hlines c hc]
        rfl
      have hrest := remaining_passing (w := [c]) h
      rw [advanceWhile, hmore, h, if_pos (by simpa using hc)]
      split
      · next next hadvance =>
        cases hnext.symm.trans hadvance
        rw [ih _ hrest, ← passing_append, List.takeWhile_cons_of_pos hc]
        rfl
      · next hadvance => cases hnext.symm.trans hadvance
    · rw [advanceWhile, hmore, h, if_neg (by simpa using hc), List.takeWhile_cons_of_neg hc]
      rfl

/-- A loop that looks at the next character only. The end mark stops it. -/
theorem advanceWhile_peek {p : Char → Bool} (hend : p endMark = false) (hline : p '\n' = false)
    (s : Scanner) : s.advanceWhile (fun s => p s.peek) (fun _ => 0) =
      some (s.passing (s.remaining.takeWhile p)) := by
  refine advanceWhile_eq (fun s => ?_) (fun c hc => ?_) s
  · rw [peek_eq]
    cases s.remaining <;> simp [hend]
  · exact (Text.newlines_singleton_of_ne (by rintro rfl; rw [hline] at hc; cases hc)).symm

/-- A loop that asks whether the source has ended beside looking for a character. -/
theorem advanceWhile_ne {lines : Char → Nat} {d : Char}
    (hlines : ∀ c, c ≠ d → lines c = Text.newlines [c]) (s : Scanner) :
    s.advanceWhile (fun s => s.peek ≠ d && !s.isAtEnd) lines =
      some (s.passing (s.remaining.takeWhile (· ≠ d))) := by
  refine advanceWhile_eq (fun s => ?_) (fun c hc => hlines c (by simpa using hc)) s
  rw [peek_eq, isAtEnd_eq]
  cases s.remaining with
  | nil => simp
  | cons c rest => by_cases hc : c = d <;> simp [hc]

/-! ## Rounds -/

/-- What a piece adds to a scanner that has just taken it. -/
def finding (s : Scanner) (p : Piece) : Scanner :=
  let placed : Placed := ⟨s.start, s.startLine, p⟩
  { s with
    tokens := s.tokens ++ placed.token?.toList
    errors := s.errors ++ placed.diagnostic?.toList }

theorem step_eq (h : s.remaining = c :: rest) :
    s.step = (s.begun.passing (Piece.split c rest).1.text).finding (Piece.split c rest).1 := by
  rw [step, h]
  rfl

variable {p : Piece}

theorem remaining_split (h : s.remaining = c :: rest) :
    s.remaining = (Piece.split c rest).1.text ++ (Piece.split c rest).2 := by
  rw [h, Piece.split_text]

theorem finding_token {kind : Kind} {literal : Literal} (h : s.remaining = p.text ++ rest)
    (hp : p.token? = some (kind, literal)) :
    (s.begun.passing p.text).finding p = (s.begun.passing p.text).addToken kind literal := by
  have hfault : p.fault? = none :=
    p.token?_eq_none_or_fault?_eq_none.resolve_left fun hnone => by rw [hp] at hnone; cases hnone
  rw [addToken, lexeme_passing h, finding]
  simp only [Placed.token?, Placed.diagnostic?, hp, hfault, Option.map_some, Option.map_none,
    Option.toList_some, Option.toList_none, List.append_nil]

theorem finding_fault {fault : Fault} (hp : p.fault? = some fault) :
    (s.begun.passing p.text).finding p = (s.begun.passing p.text).addError fault := by
  have htoken : p.token? = none :=
    p.token?_eq_none_or_fault?_eq_none.resolve_right fun hnone => by rw [hp] at hnone; cases hnone
  rw [addError, finding]
  simp only [Placed.token?, Placed.diagnostic?, hp, htoken, Option.map_some, Option.map_none,
    Option.toList_some, Option.toList_none, List.append_nil]
  rfl

theorem finding_none (htoken : p.token? = none) (hfault : p.fault? = none) :
    s.finding p = s := by
  simp only [finding, Placed.token?, Placed.diagnostic?, htoken, hfault, Option.map_none,
    Option.toList_none, List.append_nil]

/-! ### Symbols and comments -/

theorem addToken_symbol {k : Symbol} (h : s.remaining = k.spelling ++ rest) :
    (s.begun.passing k.spelling).addToken (.symbol k) .none =
      (s.begun.passing (Piece.symbol k).text).finding (.symbol k) :=
  (finding_token (p := .symbol k) h rfl).symm

theorem readOperator_eq {alone withEqual : Symbol} (hlead : Lead.of c = .operator alone withEqual)
    (h : s.remaining = c :: rest) :
    (s.begun.passing [c]).readOperator alone withEqual =
      (s.begun.passing (Piece.split c rest).1.text).finding (Piece.split c rest).1 := by
  have hrest : (s.begun.passing [c]).remaining = rest := remaining_passing (w := [c]) h
  obtain ⟨halone, hwithEqual⟩ := Lead.spelling_of_operator hlead
  rw [readOperator, accept_eq (by decide), hrest]
  by_cases hequal : rest.head? = some '='
  · obtain ⟨after, rfl⟩ := List.head?_eq_some_iff.mp hequal
    simp only [Piece.split, hlead, List.head?_cons, if_true, ← passing_append,
      List.singleton_append, ← hwithEqual]
    exact addToken_symbol (by rw [h, hwithEqual]; rfl)
  · -- `simp` takes from the context that `split` does not find the longer symbol.
    have hother : ∀ after, rest = '=' :: after → False := fun after e => hequal (by rw [e]; rfl)
    simp only [Piece.split, hlead, if_neg hequal, Bool.false_eq_true, if_false, ← halone]
    exact addToken_symbol (by rw [h, halone]; rfl)

theorem readComment?_eq (s : Scanner) :
    s.readComment? = some (s.passing (s.remaining.takeWhile (· ≠ '\n'))) :=
  advanceWhile_ne (fun _ hc => (Text.newlines_singleton_of_ne hc).symm) s

theorem readSlash?_eq (h : s.remaining = '/' :: rest) :
    (s.begun.passing ['/']).readSlash? =
      some ((s.begun.passing (Piece.split '/' rest).1.text).finding (Piece.split '/' rest).1) := by
  have hlead : Lead.of '/' = .slash := rfl
  have hrest : (s.begun.passing ['/']).remaining = rest := remaining_passing (w := ['/']) h
  rw [readSlash?, accept_eq (by decide), hrest]
  by_cases hslash : rest.head? = some '/'
  · obtain ⟨after, rfl⟩ := List.head?_eq_some_iff.mp hslash
    have hbody : ((s.begun.passing ['/']).passing ['/']).remaining = after :=
      remaining_passing (w := ['/']) hrest
    simp only [Piece.split, hlead, List.head?_cons, if_true, readComment?_eq, hbody]
    simp only [← passing_append]
    exact congrArg some (finding_none (p := .comment _) rfl rfl).symm
  · have hother : ∀ after, rest = '/' :: after → False := fun after e => hslash (by rw [e]; rfl)
    simp only [Piece.split, hlead, if_neg hslash, Bool.false_eq_true, if_false]
    exact congrArg some (addToken_symbol (k := .slash) h)

/-! ### Strings -/

/-- The loop of a string stops at the next quote or at the end. -/
theorem readString?_loop {body : Text} (hbody : '"' ∉ body) (hrest : EndsRun (· ≠ '"') rest)
    (h : s.remaining = body ++ rest) :
    s.advanceWhile (fun s => s.peek ≠ '"' && !s.isAtEnd) (fun c => Text.newlines [c]) =
      some (s.passing body) := by
  have hrun : ∀ c ∈ body, decide (c ≠ '"') = true := fun c hc =>
    decide_eq_true fun e => hbody (e ▸ hc)
  rw [advanceWhile_ne (fun _ _ => rfl), h, EndsRun.takeWhile_append hrun hrest]

theorem slice_quoted {body : Text} (h : s.remaining = '"' :: (body ++ '"' :: rest)) :
    let t := s.begun.passing (Piece.quoted body).text
    t.slice (t.start + 1) (t.current - 1) = body := by
  have hlast : s.current + (Piece.quoted body).text.length - 1 = s.current + 1 + body.length := by
    simp only [Piece.text, List.length_append, List.length_cons, List.length_nil]
    omega
  show s.slice (s.current + 1) (s.current + (Piece.quoted body).text.length - 1) = body
  rw [hlast]
  exact slice_eq (v := ['"']) h

theorem readString?_quoted {body : Text} (hbody : '"' ∉ body)
    (h : s.remaining = '"' :: (body ++ '"' :: rest)) :
    (s.begun.passing ['"']).readString? =
      some ((s.begun.passing (Piece.quoted body).text).finding (.quoted body)) := by
  have hbegun : (s.begun.passing ['"']).remaining = body ++ '"' :: rest :=
    remaining_passing (w := ['"']) h
  have hnext : ((s.begun.passing ['"']).passing body).remaining = '"' :: rest :=
    remaining_passing hbegun
  have hpassing : ((s.begun.passing ['"']).passing body).passing ['"'] =
      s.begun.passing (Piece.quoted body).text := by
    rw [← passing_append, ← passing_append]
    rfl
  have htext : s.remaining = (Piece.quoted body).text ++ rest := by
    rw [h, Piece.text, List.cons_append, List.cons_append, List.append_assoc]
    rfl
  rw [readString?, readString?_loop hbody (.cons rfl rest) hbegun, finding_token htext rfl]
  simp only [Option.bind_eq_bind, Option.bind_some, isAtEnd_eq, hnext, List.isEmpty_cons,
    Bool.false_eq_true, if_false, advance?_eq_passing hnext (by decide), hpassing, slice_quoted h]
  rfl

theorem readString?_unclosed (hrest : '"' ∉ rest) (h : s.remaining = '"' :: rest) :
    (s.begun.passing ['"']).readString? =
      some ((s.begun.passing (Piece.unclosed rest).text).finding (.unclosed rest)) := by
  rw [← List.append_nil rest] at h
  have hloop := readString?_loop hrest (.nil _)
    (remaining_passing (s := s.begun) (w := ['"']) h)
  have hpassing : (s.begun.passing ['"']).passing rest =
      s.begun.passing (Piece.unclosed rest).text := (passing_append _ _ _).symm
  have hnext : (s.begun.passing (Piece.unclosed rest).text).remaining = [] :=
    remaining_passing (s := s.begun) h
  rw [readString?, hloop, hpassing, finding_fault rfl]
  simp only [Option.bind_eq_bind, Option.bind_some, isAtEnd_eq, hnext, List.isEmpty_nil, if_true]
  rfl

theorem readString?_eq (h : s.remaining = '"' :: rest) :
    (s.begun.passing ['"']).readString? =
      some ((s.begun.passing (Piece.splitQuoted rest).1.text).finding
        (Piece.splitQuoted rest).1) := by
  by_cases hquote : '"' ∈ rest
  · obtain ⟨body, after, rfl, hbody⟩ := List.eq_append_cons_of_mem hquote
    rw [Piece.splitQuoted_append hbody]
    exact readString?_quoted hbody h
  · rw [Piece.splitQuoted_unclosed hquote]
    exact readString?_unclosed hquote h

/-! ### Numbers and words -/

theorem readDigits?_eq (s : Scanner) :
    s.readDigits? = some (s.passing (s.remaining.takeWhile Char.isDigit)) :=
  advanceWhile_peek (p := Char.isDigit) (by decide) (by decide) s

theorem startsFraction_remaining (s : Scanner) :
    (decide (s.peek = '.') && s.peekNext.isDigit) = Piece.startsFraction s.remaining := by
  rw [peek_eq, peekNext_eq]
  cases s.remaining with
  | nil => rfl
  | cons c rest =>
    rw [Piece.startsFraction_cons]
    cases rest <;> rfl

theorem readFraction?_eq (s : Scanner) :
    let fraction := (Piece.splitFraction s.remaining).1
    s.readFraction? = some (s.passing (if fraction = [] then [] else '.' :: fraction)) := by
  intro fraction
  rw [readFraction?, startsFraction_remaining]
  by_cases hf : Piece.startsFraction s.remaining = true
  · obtain ⟨d, rest, hd, h⟩ : ∃ d rest, d.isDigit = true ∧ s.remaining = '.' :: d :: rest := by
      unfold Piece.startsFraction at hf
      split at hf
      · next d rest h => exact ⟨d, rest, hf, h⟩
      · cases hf
    have hfraction : fraction = d :: rest.takeWhile Char.isDigit := by
      show (Piece.splitFraction s.remaining).1 = _
      rw [h, Piece.splitFraction, if_pos hd]
    have hnext : (s.passing ['.']).remaining = d :: rest := remaining_passing (w := ['.']) h
    simp only [if_pos hf, Option.bind_eq_bind, advance?_eq_passing h (by decide), Option.bind_some,
      readDigits?_eq, hnext, List.takeWhile_cons_of_pos hd, ← passing_append, hfraction,
      reduceCtorEq, if_false]
    rfl
  · have hnone : fraction = [] := by
      show (Piece.splitFraction s.remaining).1 = []
      rw [Piece.splitFraction_of_not_startsFraction (by simpa using hf)]
    rw [if_neg hf, hnone]
    rfl

theorem readNumber?_eq (hc : c.isDigit = true) (h : s.remaining = c :: rest) :
    let n := (Piece.splitNumeral c rest).1
    (s.begun.passing [c]).readNumber? =
      some ((s.begun.passing n.text).finding (.numeral n)) := by
  intro n
  have hrest : (s.begun.passing [c]).remaining = rest := remaining_passing (w := [c]) h
  have hdigits : ((s.begun.passing [c]).passing (rest.takeWhile Char.isDigit)).remaining =
      rest.dropWhile Char.isDigit :=
    remaining_passing (by rw [hrest, List.takeWhile_append_dropWhile])
  have hpassing : ((s.begun.passing [c]).passing (rest.takeWhile Char.isDigit)).passing
      (if n.fraction = [] then [] else '.' :: n.fraction) = s.begun.passing n.text := by
    rw [← passing_append, ← passing_append, ← Numeral.text_eq n]
    rfl
  have hfraction : ((s.begun.passing [c]).passing (rest.takeWhile Char.isDigit)).readFraction? =
      some (s.begun.passing n.text) := by
    rw [readFraction?_eq, hdigits, ← hpassing]
    rfl
  have htext : s.remaining = (Piece.numeral n).text ++ (Piece.splitNumeral c rest).2 := by
    rw [h, ← Piece.splitNumeral_text c rest]
    rfl
  have hvalue : Grammar.decimalValue (s.begun.passing n.text).lexeme = n.value := by
    rw [show (s.begun.passing n.text).lexeme = n.text from lexeme_passing htext]
    exact Grammar.decimalValue_text (Piece.splitNumeral_stops hc rest).1
  rw [readNumber?, readDigits?_eq, hrest]
  simp only [Option.bind_eq_bind, Option.bind_some, hfraction, hvalue]
  exact congrArg some (finding_token htext rfl).symm

theorem readWord?_eq (h : s.remaining = c :: rest) :
    let w := c :: rest.takeWhile isWordCharacter
    (s.begun.passing [c]).readWord? = some ((s.begun.passing w).finding (.word w)) := by
  intro w
  have hrest : (s.begun.passing [c]).remaining = rest := remaining_passing (w := [c]) h
  have htext : s.remaining = (Piece.word w).text ++ rest.dropWhile isWordCharacter := by
    rw [h, Piece.text, List.cons_append, List.takeWhile_append_dropWhile]
  have hlexeme : (s.begun.passing w).lexeme = w := lexeme_passing htext
  rw [readWord?, advanceWhile_peek (by decide) (by decide), hrest]
  simp only [Option.bind_eq_bind, Option.bind_some, ← passing_append, List.singleton_append]
  rw [show c :: rest.takeWhile isWordCharacter = w from rfl, hlexeme]
  exact congrArg some (finding_token htext rfl).symm

/-! ### Any piece -/

/-- Before the end of the source a round never asks for a character that is not there, and reads
the piece at the cursor. -/
theorem read?_eq_step (h : s.remaining = c :: rest) : s.read? = some s.step := by
  have hbegun : s.begun.remaining = c :: rest := h
  rw [read?, step_eq h, advance?_eq hbegun]
  simp only [Option.bind_eq_bind, Option.bind_some]
  by_cases hc : c = '\n'
  · subst hc
    simp only [Piece.split, show Lead.of '\n' = .blank from rfl, if_true]
    exact congrArg some (finding_none (p := .blank '\n') rfl rfl).symm
  have hfirst : { s.begun with current := s.begun.current + 1 } = s.begun.passing [c] := by
    rw [passing, Text.newlines_singleton_of_ne hc]
    rfl
  rw [hfirst]
  cases hlead : Lead.of c with
  | mark kind =>
    have hspelling := Lead.spelling_of_mark hlead
    simp only [Piece.split, hlead, ← hspelling]
    exact congrArg some (addToken_symbol (by rw [h, hspelling]; rfl))
  | operator alone withEqual => exact congrArg some (readOperator_eq hlead h)
  | slash =>
    obtain rfl := Lead.eq_slash hlead
    exact readSlash?_eq h
  | blank =>
    simp only [Piece.split, hlead, if_neg hc]
    exact congrArg some (finding_none (p := .blank c) rfl rfl).symm
  | quote =>
    obtain rfl := Lead.eq_quote hlead
    simp only [Piece.split, hlead]
    exact readString?_eq h
  | digit =>
    simp only [Piece.split, hlead]
    exact readNumber?_eq (Lead.class_of hlead) h
  | letter =>
    simp only [Piece.split, hlead]
    exact readWord?_eq h
  | foreign =>
    simp only [Piece.split, hlead]
    exact congrArg some (finding_fault (p := .foreign c) rfl).symm

end Scanner

end LoxLex
