import LoxLex.Proofs.Grammar.Lexeme
import LoxLex.Proofs.Scan.Placed

/-!
# Longest match

A reference for scanning that says nothing of how a text is read. `Form.Fits` lists the forms of
text that follow one another in a source, with numbers and words as long as they can be, and
`Tiling` lays them end to end. `scan_longest_match`: every source has one tiling, and a scan gives
what its segments stand for.
-/

namespace LoxLex.Grammar

/-- `w` is the longest text in `L` with which `t` begins. -/
structure LongestPrefix (L : Text → Prop) (w t : Text) : Prop where
  begins : w <+: t
  member : L w
  longest : ∀ v, v <+: t → L v → v.length ≤ w.length

theorem LongestPrefix.unique {L : Text → Prop} {v w t : Text} (hv : LongestPrefix L v t)
    (hw : LongestPrefix L w t) : v = w := by
  have hvw := hw.longest v hv.begins hv.member
  have hwv := hv.longest w hw.begins hw.member
  have hprefix := List.prefix_of_prefix_length_le hv.begins hw.begins hvw
  exact hprefix.eq_of_length (Nat.le_antisymm hvw hwv)

def marks : Text := ['(', ')', '{', '}', ',', '.', '-', '+', ';', '*']

def operators : Text := ['!', '=', '>', '<']

inductive Form where
  | mark
  | operator
  | slash
  | comment
  | blank
  | string
  | openString
  | number
  | word
  | other
  deriving DecidableEq

/-- A segment of the form has the text `w` if `rest` comes after it. -/
def Form.Fits : Form → Text → Text → Prop
  | mark, w, _ => ∃ c ∈ marks, w = [c]
  | operator, w, rest => ∃ c ∈ operators, w = [c, '='] ∨ w = [c] ∧ rest.head? ≠ some '='
  | slash, w, rest => w = ['/'] ∧ rest.head? ≠ some '/'
  | comment, w, rest =>
    ∃ body, w = '/' :: '/' :: body ∧ '\n' ∉ body ∧ (rest = [] ∨ rest.head? = some '\n')
  | blank, w, _ => ∃ c ∈ blanks, w = [c]
  | string, w, _ => ∃ body, w = '"' :: body ++ ['"'] ∧ '"' ∉ body
  | openString, w, rest => ∃ body, w = '"' :: body ∧ '"' ∉ body ∧ rest = []
  | number, w, rest => LongestPrefix Number w (w ++ rest)
  | word, w, rest => LongestPrefix Word w (w ++ rest)
  | other, w, _ => ∃ c, w = [c] ∧ c ∉ marks ++ operators ++ '/' :: blanks ++ ['"'] ∧
    ¬IsDigit c ∧ ¬IsLetter c

structure Segment where
  form : Form
  text : Text

/-- The segments lie end to end and make up the whole of `t`. -/
def Tiling : List Segment → Text → Prop
  | [], t => t = []
  | s :: ss, t => ∃ rest, t = s.text ++ rest ∧ s.form.Fits s.text rest ∧ Tiling ss rest

/-- The kind of token that a text of the form is. -/
def Form.kind? (w : Text) : Form → Option Kind
  | mark | operator | slash => (Symbol.all.find? fun s => s.spelling = w).map .symbol
  | string => some .string
  | number => some .number
  | word => some (Kind.ofWord w)
  | comment | blank | openString | other => none

namespace Segment

/-- The token of a segment after the text `before`. -/
def token? (before : Text) (s : Segment) : Option Token :=
  (s.form.kind? s.text).map fun k =>
    ⟨k, s.text, k.literal s.text, 1 + Text.newlines before, before.length⟩

/-- The diagnostic of a segment after the text `before`; an open string is noticed at its end. -/
def diagnostic? (before : Text) (s : Segment) : Option Diagnostic :=
  match s.form with
  | .other => s.text.head?.map fun c =>
    ⟨1 + Text.newlines before, "Unexpected character: '".toList ++ c :: "'.".toList,
      some "L001".toList⟩
  | .openString =>
    some ⟨1 + Text.newlines (before ++ s.text), "Unterminated string.".toList, some "L002".toList⟩
  | _ => none

/-- What `f` makes of the segments one after the other, the first of them after `before`. -/
def collect {α : Type} (f : Text → Segment → Option α) (before : Text) : List Segment → List α
  | [] => []
  | s :: ss => (f before s).toList ++ collect f (before ++ s.text) ss

end Segment

/-! ## Numbers and words -/

theorem longestPrefix_number {n : Numeral} {rest : Text} (hn : n.WellFormed)
    (hs : (Piece.numeral n).StopsAt rest) : LongestPrefix Number n.text (n.text ++ rest) := by
  refine ⟨List.prefix_append .., number_iff.mpr ⟨n, hn, rfl⟩, ?_⟩
  rintro v ⟨r, hr⟩ hv
  obtain ⟨m, hm, rfl⟩ := number_iff.mp hv
  obtain ⟨whole, fraction⟩ := n
  obtain ⟨whole', fraction'⟩ := m
  have hwhole : ∀ c ∈ whole, c.isDigit = true := hn.whole_digits
  have hwhole' : ∀ c ∈ whole', c.isDigit = true := hm.whole_digits
  have hfraction' : ∀ c ∈ fraction', c.isDigit = true := hm.fraction_digits
  have hpoint (t : Text) : EndsRun Char.isDigit ('.' :: t) := .cons rfl t
  by_cases hf : fraction = [] <;> by_cases hf' : fraction' = [] <;>
    simp only [Numeral.text, hf, hf', if_true, if_false, List.append_assoc, List.cons_append,
      List.length_append, List.length_cons] at hr ⊢
  · exact hs.1.length_le hwhole' hr
  · -- the longer number needs a point and a digit right after the shorter one
    obtain ⟨-, rfl⟩ := EndsRun.append_inj hwhole' (hpoint _) hwhole hs.1 hr
    obtain ⟨d, ds, rfl⟩ := List.exists_cons_of_ne_nil hf'
    have := hs.2 hf
    rw [List.cons_append, Piece.startsFraction, hfraction' d (by simp)] at this
    cases this
  · have := (hpoint _).length_le hwhole' hr
    omega
  · obtain ⟨rfl, htail⟩ := EndsRun.append_inj hwhole' (hpoint _) hwhole (hpoint _) hr
    have := hs.1.length_le hfraction' (List.cons.inj htail).2
    omega

theorem longestPrefix_word {w rest : Text} (hw : (Piece.word w).WellFormed)
    (hs : (Piece.word w).StopsAt rest) : LongestPrefix Word w (w ++ rest) := by
  refine ⟨List.prefix_append .., word_iff.mpr hw, ?_⟩
  rintro v ⟨r, hr⟩ ⟨c, tail, rfl, hc, htail⟩
  refine EndsRun.length_le hs (fun d hd => isWordCharacter_iff.mpr ?_) hr
  obtain rfl | hd := List.mem_cons.mp hd
  · exact .inl hc
  · exact htail d hd

/-! ## Segments and pieces -/

def Form.ofSymbol (s : Symbol) : Form :=
  if s = .slash then .slash
  else if Symbol.marks.any fun entry => entry.2 = s then .mark
  else .operator

def Form.ofPiece : Piece → Form
  | .symbol s => ofSymbol s
  | .comment _ => comment
  | .blank _ => blank
  | .quoted _ => string
  | .unclosed _ => openString
  | .numeral _ => number
  | .word _ => word
  | .foreign _ => other

def Segment.ofPiece (p : Piece) : Segment := ⟨.ofPiece p, p.text⟩

theorem fits_symbol {s : Symbol} {rest : Text} (hs : (Piece.symbol s).StopsAt rest) :
    (Form.ofSymbol s).Fits s.spelling rest := by
  have hslash := fun h => EndsRun.eq_iff.mp (hs.1 h)
  have hequal := fun h => EndsRun.eq_iff.mp (hs.2 h)
  cases s
  case slash => exact ⟨rfl, hslash rfl⟩
  case bang | equal | greater | less => exact ⟨_, by decide, .inr ⟨rfl, hequal rfl⟩⟩
  case bangEqual | equalEqual | greaterEqual | lessEqual => exact ⟨_, by decide, .inl rfl⟩
  all_goals exact ⟨_, by decide, rfl⟩

theorem fits_ofPiece {p : Piece} {rest : Text} (hw : p.WellFormed) (hs : p.StopsAt rest) :
    (Form.ofPiece p).Fits p.text rest := by
  cases p with
  | symbol s => exact fits_symbol hs
  | comment body =>
    refine ⟨body, rfl, hw, ?_⟩
    cases rest with
    | nil => exact .inl rfl
    | cons c rest => exact .inr (by simpa using hs c rfl)
  | blank c => exact ⟨c, isBlank_iff.mp hw, rfl⟩
  | quoted body => exact ⟨body, rfl, hw⟩
  | unclosed body => exact ⟨body, rfl, hw, hs⟩
  | numeral n => exact longestPrefix_number hw hs
  | word w => exact longestPrefix_word hw hs
  | foreign c =>
    obtain ⟨hc, hd, hl⟩ := Lead.of_eq_foreign_iff.mp hw
    exact ⟨c, rfl, hc, by simp [← isDigit_iff, hd], by simp [← isLetter_iff, hl]⟩

theorem ofSymbol_of_mem_marks {c : Char} (h : c ∈ marks) :
    ∃ s, (c, s) ∈ Symbol.marks ∧ Segment.ofPiece (.symbol s) = ⟨.mark, [c]⟩ := by
  have hmem : (marks.all fun c => (Symbol.marks.map Prod.fst).contains c) = true := by decide
  have key : ∀ entry ∈ Symbol.marks,
      Form.ofSymbol entry.2 = .mark ∧ entry.2.spelling = [entry.1] := by decide
  obtain ⟨s, hs⟩ : ∃ s, (c, s) ∈ Symbol.marks := by simpa using List.all_eq_true.mp hmem c h
  obtain ⟨hform, htext⟩ := key _ hs
  exact ⟨s, hs, by rw [Segment.ofPiece, Form.ofPiece, Piece.text, hform, htext]⟩

theorem ofSymbol_of_mem_operators {c : Char} (h : c ∈ operators) :
    ∃ alone withEqual, (c, alone, withEqual) ∈ Symbol.operators ∧
      Segment.ofPiece (.symbol alone) = ⟨.operator, [c]⟩ ∧
      Segment.ofPiece (.symbol withEqual) = ⟨.operator, [c, '=']⟩ := by
  have hmem : (operators.all fun c => (Symbol.operators.map Prod.fst).contains c) = true := by
    decide
  have key : ∀ entry ∈ Symbol.operators,
      (Form.ofSymbol entry.2.1 = .operator ∧ entry.2.1.spelling = [entry.1]) ∧
      Form.ofSymbol entry.2.2 = .operator ∧ entry.2.2.spelling = [entry.1, '='] := by decide
  obtain ⟨alone, withEqual, hs⟩ : ∃ alone withEqual, (c, alone, withEqual) ∈ Symbol.operators := by
    simpa using List.all_eq_true.mp hmem c h
  obtain ⟨⟨hform, htext⟩, hform', htext'⟩ := key _ hs
  refine ⟨alone, withEqual, hs, ?_, ?_⟩
  · rw [Segment.ofPiece, Form.ofPiece, Piece.text, hform, htext]
  · rw [Segment.ofPiece, Form.ofPiece, Piece.text, hform', htext']

theorem exists_numeral_of_longestPrefix {w rest : Text} (h : LongestPrefix Number w (w ++ rest)) :
    ∃ n : Numeral, n.WellFormed ∧ (Piece.numeral n).StopsAt rest ∧ n.text = w := by
  obtain ⟨m, hm, rfl⟩ := number_iff.mp h.member
  obtain ⟨c, v, e⟩ := Piece.WellFormed.exists_cons (p := .numeral m) hm
  have e : m.text = c :: v := e
  obtain ⟨hn, hs⟩ := Piece.splitNumeral_stops (hm.head_digit e) (v ++ rest)
  have ht := Piece.splitNumeral_text c (v ++ rest)
  have he : (Piece.splitNumeral c (v ++ rest)).1.text = m.text := by
    refine (longestPrefix_number hn hs).unique ?_
    rwa [ht, ← List.cons_append, ← e]
  refine ⟨_, hn, ?_, he⟩
  rw [he, e] at ht
  rwa [List.append_cancel_left ht] at hs

theorem exists_word_of_longestPrefix {w rest : Text} (h : LongestPrefix Word w (w ++ rest)) :
    (Piece.word w).WellFormed ∧ (Piece.word w).StopsAt rest := by
  obtain ⟨c, tail, rfl, hc, htail⟩ := h.member
  refine ⟨word_iff.mp h.member, fun d hd => ?_⟩
  by_contra hword
  obtain ⟨rest, rfl⟩ := List.head?_eq_some_iff.mp hd
  have hd : IsLetter d ∨ IsDigit d := isWordCharacter_iff.mp (by simpa using hword)
  have hlonger : Word (c :: tail ++ [d]) := by
    refine ⟨c, tail ++ [d], rfl, hc, fun x hx => ?_⟩
    rcases List.mem_append.mp hx with hx | hx
    · exact htail x hx
    · exact List.mem_singleton.mp hx ▸ hd
  have := h.longest (c :: tail ++ [d]) ⟨rest, by simp⟩ hlonger
  simp only [List.length_append, List.length_singleton] at this
  omega

theorem exists_of_fits {s : Segment} {rest : Text} (h : s.form.Fits s.text rest) :
    ∃ p : Piece, p.WellFormed ∧ p.StopsAt rest ∧ Segment.ofPiece p = s := by
  obtain ⟨form, w⟩ := s
  cases form with
  | mark =>
    obtain ⟨c, hc, rfl⟩ := h
    obtain ⟨s, hs, e⟩ := ofSymbol_of_mem_marks hc
    exact ⟨.symbol s, trivial, Piece.stopsAt_of_mem_marks hs rest, e⟩
  | operator =>
    obtain ⟨c, hc, hw⟩ := h
    obtain ⟨alone, withEqual, hs, halone, hequal⟩ := ofSymbol_of_mem_operators hc
    obtain ⟨hequalStops, haloneStops⟩ := Piece.stopsAt_of_mem_operators hs rest
    rcases hw with rfl | ⟨rfl, hrest⟩
    · exact ⟨.symbol withEqual, trivial, hequalStops, hequal⟩
    · exact ⟨.symbol alone, trivial, haloneStops (EndsRun.eq_iff.mpr hrest), halone⟩
  | slash =>
    obtain ⟨rfl, hrest⟩ := h
    exact ⟨.symbol .slash, trivial, ⟨fun _ => EndsRun.eq_iff.mpr hrest, fun h => by cases h⟩, rfl⟩
  | comment =>
    obtain ⟨body, rfl, hb, hrest⟩ := h
    refine ⟨.comment body, hb, fun c hc => ?_, rfl⟩
    rcases hrest with rfl | hrest
    · cases hc
    · cases hrest.symm.trans hc
      rfl
  | blank =>
    obtain ⟨c, hc, rfl⟩ := h
    exact ⟨.blank c, isBlank_iff.mpr hc, trivial, rfl⟩
  | string =>
    obtain ⟨body, rfl, hb⟩ := h
    exact ⟨.quoted body, hb, trivial, rfl⟩
  | openString =>
    obtain ⟨body, rfl, hb, hrest⟩ := h
    exact ⟨.unclosed body, hb, hrest, rfl⟩
  | number =>
    obtain ⟨n, hn, hs, rfl⟩ := exists_numeral_of_longestPrefix h
    exact ⟨.numeral n, hn, hs, rfl⟩
  | word =>
    obtain ⟨hw, hs⟩ := exists_word_of_longestPrefix h
    exact ⟨.word w, hw, hs, rfl⟩
  | other =>
    obtain ⟨c, rfl, hc, hd, hl⟩ := h
    refine ⟨.foreign c, Lead.of_eq_foreign_iff.mpr ⟨hc, ?_, ?_⟩, trivial, rfl⟩
    · simpa [← isDigit_iff] using hd
    · simpa [← isLetter_iff] using hl

theorem tiling_ofPiece {ps : List Piece} (h : Stand ps []) :
    Tiling (ps.map Segment.ofPiece) (ps.flatMap Piece.text) := by
  induction ps with
  | nil => rfl
  | cons p ps ih =>
    obtain ⟨hw, hs, hps⟩ := h
    rw [List.append_nil] at hs
    exact ⟨_, rfl, fits_ofPiece hw hs, ih hps⟩

theorem exists_of_tiling {ss : List Segment} {t : Text} (h : Tiling ss t) :
    ∃ ps, Stand ps [] ∧ ps.flatMap Piece.text = t ∧ ps.map Segment.ofPiece = ss := by
  induction ss generalizing t with
  | nil => exact ⟨[], trivial, h.symm, rfl⟩
  | cons s ss ih =>
    obtain ⟨rest, rfl, hfits, hss⟩ := h
    obtain ⟨p, hw, hs, rfl⟩ := exists_of_fits hfits
    obtain ⟨ps, hps, rfl, rfl⟩ := ih hss
    exact ⟨p :: ps, ⟨hw, by rwa [List.append_nil], hps⟩, rfl, rfl⟩

/-- The pieces of a text are its only tiling. -/
theorem tiling_iff {ss : List Segment} {t : Text} :
    Tiling ss t ↔ ss = (pieces t).map Segment.ofPiece := by
  constructor
  · intro h
    obtain ⟨ps, hps, ht, rfl⟩ := exists_of_tiling h
    rw [pieces_eq_iff.mpr ⟨ht, hps⟩]
  · rintro rfl
    have := tiling_ofPiece (stand_pieces t)
    rwa [pieces_text] at this

/-! ## What the segments stand for -/

theorem kind?_ofPiece {p : Piece} : (Form.ofPiece p).kind? p.text = p.token?.map Prod.fst := by
  cases p with
  | symbol s => cases s <;> rfl
  | _ => rfl

theorem token?_ofPiece {p : Piece} (h : p.WellFormed) (before : Text) :
    (Segment.ofPiece p).token? before =
      Placed.token? ⟨before.length, 1 + Text.newlines before, p⟩ := by
  cases ht : p.token? with
  | none => simp [Segment.token?, Segment.ofPiece, kind?_ofPiece, Placed.token?, ht]
  | some kv =>
    obtain ⟨k, v⟩ := kv
    obtain ⟨-, rfl⟩ := Piece.spells_of_token? h ht
    simp [Segment.token?, Segment.ofPiece, kind?_ofPiece, Placed.token?, ht]

theorem diagnostic?_ofPiece {p : Piece} (h : p.WellFormed) (before : Text) :
    (Segment.ofPiece p).diagnostic? before =
      Placed.diagnostic? ⟨before.length, 1 + Text.newlines before, p⟩ := by
  cases p with
  | foreign c =>
    have hc : Text.newlines (Piece.foreign c).text = 0 := newlines_foreign h
    simp only [Placed.diagnostic?, Placed.endLine, hc]
    rfl
  | unclosed body =>
    simp only [Placed.diagnostic?, Placed.endLine, Segment.diagnostic?, Segment.ofPiece,
      Form.ofPiece, Text.newlines_append, Nat.add_assoc]
    rfl
  | symbol s => cases s <;> rfl
  | _ => rfl

theorem collect_ofPiece {α : Type} {f : Text → Segment → Option α} {g : Placed → Option α}
    (hfg : ∀ (p : Piece), p.WellFormed → ∀ before, f before (.ofPiece p) =
      g ⟨before.length, 1 + Text.newlines before, p⟩)
    {ps : List Piece} (h : ∀ p ∈ ps, p.WellFormed) (before : Text) :
    Segment.collect f before (ps.map Segment.ofPiece) =
      (placeAfter before ps).filterMap g := by
  induction ps generalizing before with
  | nil => rfl
  | cons p ps ih =>
    rw [List.map_cons, Segment.collect, hfg p (h p List.mem_cons_self),
      ih (fun q hq => h q (List.mem_cons_of_mem p hq)), filterMap_placeAfter_cons]
    rfl

/-- Every source is tiled in one way, and what a scanner finds in it is what the segments of that
tiling stand for. -/
theorem scan_longest_match (source : Text) :
    ∃ segments, (∀ ss, Tiling ss source ↔ ss = segments) ∧ (∀ s ∈ segments, s.text ≠ []) ∧
      scan source = {
        tokens := Segment.collect Segment.token? [] segments ++
          [⟨.endOfInput, [], .none, 1 + Text.newlines source, source.length⟩]
        diagnostics := Segment.collect Segment.diagnostic? [] segments
        line := 1 + Text.newlines source } ∧
      (Scanner.ofSource source).scanAll.1.result = scan source := by
  have hw := (stand_pieces source).wellFormed
  refine ⟨(pieces source).map Segment.ofPiece, fun ss => tiling_iff, fun s hs => ?_, ?_,
    result_scanAll_ofSource source⟩
  · obtain ⟨p, hp, rfl⟩ := List.mem_map.mp hs
    exact List.ne_nil_of_length_pos (hw p hp).length_pos
  · rw [collect_ofPiece (fun p hp => token?_ofPiece hp) hw,
      collect_ofPiece (fun p hp => diagnostic?_ofPiece hp) hw]
    exact scan_eq source

end LoxLex.Grammar
