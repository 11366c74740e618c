import LoxLex.Piece.Split

/-!
# Where pieces stop

`Piece.WellFormed` says what a piece may hold and `Piece.StopsAt p rest` that `p` goes no further
when `rest` comes directly after it. Together they are what `Piece.split` computes: `split_stops`
and `split_of_stops`. Of the text that follows, only the next character matters and whether it is a
point with a digit behind it (`StopsAt.congr`).
-/

namespace LoxLex

/-- A run of characters in `p` ends where `rest` begins. -/
def EndsRun (p : Char → Bool) (rest : Text) : Prop := ∀ c ∈ rest.head?, p c = false

namespace EndsRun

variable {p : Char → Bool} {w rest : Text}

theorem nil (p : Char → Bool) : EndsRun p [] := fun _ h => by cases h

theorem cons {c : Char} (h : p c = false) (rest : Text) : EndsRun p (c :: rest) := fun d hd => by
  cases Option.mem_some.mp hd
  exact h

theorem congr {rest' : Text} (h : EndsRun p rest) (hh : rest.head? = rest'.head?) :
    EndsRun p rest' := fun c hc => h c (hh ▸ hc)

theorem eq_iff {c : Char} : EndsRun (· = c) rest ↔ rest.head? ≠ some c := by
  constructor
  · intro h hc
    simpa using h c hc
  · intro h d hd
    exact decide_eq_false fun hdc => h (hdc ▸ hd)

theorem of_ne {c : Char} (h : ∀ after, rest = c :: after → False) : EndsRun (· = c) rest :=
  eq_iff.mpr fun hc =>
    let ⟨after, e⟩ := List.head?_eq_some_iff.mp hc
    h after e

theorem dropWhile (p : Char → Bool) (t : Text) : EndsRun p (t.dropWhile p) := fun c hc => by
  have := List.head?_dropWhile_not p t
  rw [Option.mem_def.mp hc] at this
  simpa using this

theorem takeWhile_append (hw : ∀ c ∈ w, p c = true) (h : EndsRun p rest) :
    (w ++ rest).takeWhile p = w := by
  rw [List.takeWhile_append_of_pos hw]
  cases rest with
  | nil => simp
  | cons c rest => rw [List.takeWhile_cons_of_neg (by simp [h c rfl]), List.append_nil]

theorem dropWhile_append (hw : ∀ c ∈ w, p c = true) (h : EndsRun p rest) :
    (w ++ rest).dropWhile p = rest := by
  rw [List.dropWhile_append_of_pos hw]
  cases rest with
  | nil => rfl
  | cons c rest => rw [List.dropWhile_cons_of_neg (by simp [h c rfl])]

/-- Where a run ends is where the text stops to be in `p`. -/
theorem append_inj {v r : Text} (hv : ∀ c ∈ v, p c = true) (hr : EndsRun p r)
    (hw : ∀ c ∈ w, p c = true) (h : EndsRun p rest) (he : v ++ r = w ++ rest) :
    v = w ∧ r = rest := by
  have : v = w := by rw [← takeWhile_append hv hr, he, takeWhile_append hw h]
  subst this
  exact ⟨rfl, List.append_cancel_left he⟩

/-- A run that begins no later than `w` does not go beyond it. -/
theorem length_le {v r : Text} (h : EndsRun p rest) (hv : ∀ c ∈ v, p c = true)
    (he : v ++ r = w ++ rest) : v.length ≤ w.length := by
  rcases List.append_eq_append_iff.mp he with ⟨a, rfl, -⟩ | ⟨a, rfl, rfl⟩
  · simp
  · cases a with
    | nil => simp
    | cons c a =>
      have := hv c (by simp)
      rw [h c rfl] at this
      cases this

end EndsRun

theorem mem_takeWhile {p : Char → Bool} {t : Text} {c : Char} (h : c ∈ t.takeWhile p) :
    p c = true := List.all_eq_true.mp List.all_takeWhile c h

/-! ## Leads -/

theorem isLetter_iff_le {c : Char} :
    isLetter c = true ↔ 'A' ≤ c ∧ c ≤ 'Z' ∨ 'a' ≤ c ∧ c ≤ 'z' ∨ c = '_' := by
  have h : isLetter c = ((decide ('A' ≤ c ∧ c ≤ 'Z') || (decide ('a' ≤ c) && decide (c ≤ 'z'))) ||
      decide (c = '_')) := rfl
  simp only [h, Bool.or_eq_true, Bool.and_eq_true, decide_eq_true_eq, or_assoc]

namespace Lead

theorem ne_of_class {p : Char → Bool} {c d : Char} (hc : p c = true) (hd : p d = false) :
    c ≠ d := by
  rintro rfl
  rw [hc] at hd
  cases hd

theorem lookup_eq_none {α : Type} {table : List (Char × α)} {p : Char → Bool} {c : Char}
    (h : ∀ entry ∈ table, p entry.1 = false) (hc : p c = true) : table.lookup c = none := by
  rw [List.lookup_eq_none_iff]
  intro entry he
  simpa using ne_of_class hc (h entry he)

/-- The lead of a character in a class `p` that no symbol but the slash begins with. -/
theorem of_eq_of_class {p : Char → Bool} {c : Char}
    (hm : ∀ entry ∈ Symbol.marks, p entry.1 = false)
    (ho : ∀ entry ∈ Symbol.operators, p entry.1 = false) (hs : p '/' = false) (hc : p c = true) :
    of c = if isBlank c then .blank else if c = '"' then .quote else if c.isDigit then .digit
      else if isLetter c then .letter else .foreign := by
  simp only [of, lookup_eq_none hm hc, lookup_eq_none ho hc, if_neg (ne_of_class hc hs)]

theorem isBlank_eq_false {p : Char → Bool} {c : Char}
    (hb : [' ', '\t', '\r', '\n'].any p = false) (hc : p c = true) : isBlank c = false := by
  have (d) (hd : d ∈ [' ', '\t', '\r', '\n']) : c ≠ d :=
    ne_of_class hc (by simpa using List.any_eq_false.mp hb d hd)
  simp only [isBlank, Bool.or_eq_false_iff, decide_eq_false_iff_not]
  exact ⟨⟨⟨this _ (by simp), this _ (by simp)⟩, this _ (by simp)⟩, this _ (by simp)⟩

theorem isDigit_of_isLetter {c : Char} (h : isLetter c = true) : c.isDigit = false := by
  refine Bool.eq_false_iff.mpr fun hd => ?_
  have hd : c ≤ '9' := (Char.isDigit_iff_toNat.mp hd).2
  obtain ⟨h, -⟩ | ⟨h, -⟩ | rfl := isLetter_iff_le.mp h
  · exact absurd (Char.le_trans h hd) (by decide)
  · exact absurd (Char.le_trans h hd) (by decide)
  · exact absurd hd (by decide)

theorem of_blank {c : Char} (h : isBlank c = true) : of c = .blank := by
  rw [of_eq_of_class (p := isBlank) (by decide) (by decide) (by decide) h, if_pos h]

theorem of_digit {c : Char} (h : c.isDigit = true) : of c = .digit := by
  rw [of_eq_of_class (p := Char.isDigit) (by decide) (by decide) (by decide) h,
    isBlank_eq_false (p := Char.isDigit) (by decide) h, if_neg (by decide),
    if_neg (ne_of_class h (by decide)), if_pos h]

theorem of_letter {c : Char} (h : isLetter c = true) : of c = .letter := by
  rw [of_eq_of_class (p := isLetter) (by decide) (by decide) (by decide) h,
    isBlank_eq_false (p := isLetter) (by decide) h, isDigit_of_isLetter h, if_neg (by decide),
    if_neg (ne_of_class h (by decide)), if_neg (by decide), if_pos h]

/-- The class of characters that a lead stands for. -/
theorem class_of {c : Char} {lead : Lead} (h : of c = lead) :
    match lead with
    | .blank => isBlank c = true
    | .digit => c.isDigit = true
    | .letter => isLetter c = true
    | _ => True := by
  unfold of at h
  repeat' split at h
  all_goals subst h; trivial

/-- The characters of symbols, blanks and quotes. -/
def punctuation : Text :=
  ['(', ')', '{', '}', ',', '.', '-', '+', ';', '*', '!', '=', '>', '<', '/', ' ', '\t', '\r', '\n',
    '"']

/-- A character that starts nothing is no punctuation, no digit and no letter. -/
theorem of_eq_foreign_iff {c : Char} :
    of c = .foreign ↔ c ∉ punctuation ∧ c.isDigit = false ∧ isLetter c = false := by
  constructor
  · intro h
    refine ⟨fun hc => ?_, ?_, ?_⟩
    · have key : (punctuation.any fun d => of d = .foreign) = false := by decide
      exact List.any_eq_false.mp key c hc (by simp [h])
    · exact Bool.eq_false_iff.mpr fun hd => by rw [of_digit hd] at h; cases h
    · exact Bool.eq_false_iff.mpr fun hl => by rw [of_letter hl] at h; cases h
  · rintro ⟨hc, hd, hl⟩
    let p : Char → Bool := fun d => d ∉ punctuation
    have hp : p c = true := decide_eq_true hc
    rw [of_eq_of_class (p := p) (by decide) (by decide) (by decide) hp,
      isBlank_eq_false (p := p) (by decide) hp, hd, hl, if_neg (by decide),
      if_neg (ne_of_class (p := p) hp (by decide)), if_neg (by decide), if_neg (by decide)]

end Lead

/-! ## Well-formed pieces -/

structure Numeral.WellFormed (n : Numeral) : Prop where
  whole_ne_nil : n.whole ≠ []
  whole_digits : ∀ c ∈ n.whole, c.isDigit = true
  fraction_digits : ∀ c ∈ n.fraction, c.isDigit = true

theorem Numeral.WellFormed.head_digit {n : Numeral} {c : Char} {w : Text} (h : n.WellFormed)
    (ht : n.text = c :: w) : c.isDigit = true := by
  obtain ⟨d, ds, e⟩ := List.exists_cons_of_ne_nil h.whole_ne_nil
  have hd := h.whole_digits d (by simp [e])
  simp only [Numeral.text, e] at ht
  split at ht <;> cases ht <;> exact hd

namespace Piece

/-- What a piece may hold. -/
def WellFormed : Piece → Prop
  | symbol _ => True
  | comment body => '\n' ∉ body
  | blank c => isBlank c = true
  | quoted body | unclosed body => '"' ∉ body
  | numeral n => n.WellFormed
  | word w => ∃ c tail, w = c :: tail ∧ isLetter c = true ∧ ∀ d ∈ tail, isWordCharacter d = true
  | foreign c => Lead.of c = .foreign

/-- A point with a digit behind it. -/
def startsFraction : Text → Bool
  | '.' :: d :: _ => d.isDigit
  | _ => false

/-- The symbols that a directly following `=` makes longer. -/
def takesEqual (s : Symbol) : Bool := Symbol.operators.any fun entry => entry.2.1 = s

/-- The piece goes no further if `rest` comes next. -/
def StopsAt : Piece → Text → Prop
  | symbol s, rest =>
    (s = .slash → EndsRun (· = '/') rest) ∧ (takesEqual s = true → EndsRun (· = '=') rest)
  | comment _, rest => EndsRun (· ≠ '\n') rest
  | unclosed _, rest => rest = []
  | numeral n, rest => EndsRun Char.isDigit rest ∧ (n.fraction = [] → startsFraction rest = false)
  | word _, rest => EndsRun isWordCharacter rest
  | blank _, _ | quoted _, _ | foreign _, _ => True

/-- What comes next matters to a piece by its first character and as the fraction of a number. -/
theorem StopsAt.congr {p : Piece} {rest rest' : Text} (h : p.StopsAt rest)
    (hh : rest.head? = rest'.head?) (hf : startsFraction rest = startsFraction rest') :
    p.StopsAt rest' := by
  cases p with
  | symbol s => exact ⟨fun hs => (h.1 hs).congr hh, fun hs => (h.2 hs).congr hh⟩
  | comment body => exact EndsRun.congr h hh
  | unclosed body =>
    rw [show rest = [] from h] at hh
    exact List.head?_eq_none_iff.mp hh.symm
  | numeral n => exact ⟨h.1.congr hh, fun hn => hf ▸ h.2 hn⟩
  | word w => exact EndsRun.congr h hh
  | blank _ | quoted _ | foreign _ => trivial

theorem startsFraction_cons (c : Char) (rest : Text) :
    startsFraction (c :: rest) = (c = '.' && rest.head?.any Char.isDigit) := by
  by_cases hc : c = '.' <;> cases rest <;> simp [startsFraction, hc]

/-! ## Cutting off the first piece -/

theorem splitFraction_of_not_startsFraction {t : Text} (h : startsFraction t = false) :
    splitFraction t = ([], t) := by
  unfold splitFraction
  split
  · next d rest => rw [if_neg (by simpa [startsFraction] using h)]
  · rfl

theorem splitFraction_append {digits rest : Text} (hne : digits ≠ [])
    (hd : ∀ c ∈ digits, c.isDigit = true) (h : EndsRun Char.isDigit rest) :
    splitFraction ('.' :: digits ++ rest) = (digits, rest) := by
  obtain ⟨d, ds, rfl⟩ := List.exists_cons_of_ne_nil hne
  have hds : ∀ c ∈ ds, c.isDigit = true := fun c hc => hd c (List.mem_cons_of_mem d hc)
  simp only [List.cons_append, splitFraction, hd d List.mem_cons_self, if_true,
    EndsRun.takeWhile_append hds h, EndsRun.dropWhile_append hds h]

theorem splitFraction_digits (t : Text) : ∀ c ∈ (splitFraction t).1, c.isDigit = true := by
  unfold splitFraction
  split
  · next d rest =>
    split
    · next hd =>
      intro c hc
      obtain rfl | hc := List.mem_cons.mp hc
      · exact hd
      · exact mem_takeWhile hc
    · simp
  · simp

theorem splitFraction_stops {t : Text} (h : EndsRun Char.isDigit t) :
    EndsRun Char.isDigit (splitFraction t).2 ∧
      ((splitFraction t).1 = [] → startsFraction (splitFraction t).2 = false) := by
  by_cases hf : startsFraction t = true
  · unfold startsFraction at hf
    split at hf
    · next d rest =>
      simp only [splitFraction, hf, if_true]
      exact ⟨EndsRun.dropWhile _ rest, fun h => by cases h⟩
    · cases hf
  · rw [splitFraction_of_not_startsFraction (by simpa using hf)]
    exact ⟨h, fun _ => by simpa using hf⟩

theorem splitNumeral_stops {c : Char} (hc : c.isDigit = true) (rest : Text) :
    (splitNumeral c rest).1.WellFormed ∧
      (numeral (splitNumeral c rest).1).StopsAt (splitNumeral c rest).2 := by
  refine ⟨⟨by simp [splitNumeral], ?_, splitFraction_digits _⟩,
    splitFraction_stops (EndsRun.dropWhile _ rest)⟩
  intro d hd
  obtain rfl | hd := List.mem_cons.mp hd
  · exact hc
  · exact mem_takeWhile hd

theorem splitQuoted_stops (rest : Text) :
    (splitQuoted rest).1.WellFormed ∧ (splitQuoted rest).1.StopsAt (splitQuoted rest).2 := by
  have hq : '"' ∉ rest.takeWhile (· ≠ '"') := fun h => by simpa using mem_takeWhile h
  unfold splitQuoted
  split
  · next h =>
    have := List.takeWhile_append_dropWhile (p := (· ≠ '"')) (l := rest)
    rw [h, List.append_nil] at this
    exact ⟨this ▸ hq, rfl⟩
  · exact ⟨hq, trivial⟩

theorem stopsAt_of_mem_marks {c : Char} {s : Symbol} (h : (c, s) ∈ Symbol.marks) (rest : Text) :
    (symbol s).StopsAt rest := by
  have key : ∀ entry ∈ Symbol.marks, entry.2 ≠ .slash ∧ takesEqual entry.2 = false := by decide
  obtain ⟨hs, he⟩ := key _ h
  exact ⟨fun e => absurd e hs, fun e => by rw [he] at e; cases e⟩

theorem stopsAt_of_mem_operators {c : Char} {alone withEqual : Symbol}
    (h : (c, alone, withEqual) ∈ Symbol.operators) (rest : Text) :
    (symbol withEqual).StopsAt rest ∧ (EndsRun (· = '=') rest → (symbol alone).StopsAt rest) := by
  have key : ∀ entry ∈ Symbol.operators, entry.2.1 ≠ .slash ∧ entry.2.2 ≠ .slash ∧
      takesEqual entry.2.2 = false := by decide
  obtain ⟨ha, hw, he⟩ := key _ h
  refine ⟨⟨fun e => absurd e hw, fun e => ?_⟩, fun hrest => ⟨fun e => absurd e ha, fun _ => hrest⟩⟩
  rw [he] at e
  cases e

theorem split_stops (c : Char) (rest : Text) :
    (split c rest).1.WellFormed ∧ (split c rest).1.StopsAt (split c rest).2 := by
  cases h : Lead.of c with
  | mark s =>
    simp only [split, h]
    exact ⟨trivial, stopsAt_of_mem_marks (Lead.mem_marks h) rest⟩
  | operator alone withEqual =>
    have hmem := Lead.mem_operators h
    simp only [split, h]
    split
    · exact ⟨trivial, (stopsAt_of_mem_operators hmem _).1⟩
    · next hne => exact ⟨trivial, (stopsAt_of_mem_operators hmem rest).2 (.of_ne hne)⟩
  | slash =>
    simp only [split, h]
    split
    · next after => exact ⟨fun h => by simpa using mem_takeWhile h, EndsRun.dropWhile _ after⟩
    · next hne => exact ⟨trivial, fun _ => .of_ne hne, fun e => by cases e⟩
  | blank =>
    simp only [split, h]
    exact ⟨Lead.class_of h, trivial⟩
  | quote =>
    simp only [split, h]
    exact splitQuoted_stops rest
  | digit =>
    simp only [split, h]
    exact splitNumeral_stops (Lead.class_of h) rest
  | letter =>
    simp only [split, h]
    exact ⟨⟨c, _, rfl, Lead.class_of h, fun d hd => mem_takeWhile hd⟩, EndsRun.dropWhile _ rest⟩
  | foreign =>
    simp only [split, h]
    exact ⟨h, trivial⟩

/-- How the spelling of a symbol begins. -/
theorem lead_of_spelling (s : Symbol) :
    (∃ c, s.spelling = [c] ∧ Lead.of c = .mark s) ∨
    (∃ c withEqual, s.spelling = [c] ∧ Lead.of c = .operator s withEqual ∧ takesEqual s = true) ∨
    (∃ c alone, s.spelling = [c, '='] ∧ Lead.of c = .operator alone s) ∨ s = .slash := by
  cases s
  all_goals first
    | exact .inl ⟨_, rfl, rfl⟩
    | exact .inr (.inl ⟨_, _, rfl, rfl, rfl⟩)
    | exact .inr (.inr (.inl ⟨_, _, rfl, rfl⟩))
    | exact .inr (.inr (.inr rfl))

theorem split_symbol {s : Symbol} {c : Char} {w rest : Text} (ht : s.spelling = c :: w)
    (hs : (symbol s).StopsAt rest) : split c (w ++ rest) = (symbol s, rest) := by
  obtain ⟨d, e, h⟩ | ⟨d, withEqual, e, h, he⟩ | ⟨d, alone, e, h⟩ | rfl := lead_of_spelling s
  · cases ht.symm.trans e
    simp only [split, h, List.nil_append]
  · cases ht.symm.trans e
    simp only [split, h, List.nil_append]
    split
    · next after => exact absurd (hs.2 he '=' rfl) (by decide)
    · rfl
  · cases ht.symm.trans e
    simp only [split, h, List.cons_append, List.nil_append]
  · obtain ⟨rfl, rfl⟩ : '/' = c ∧ [] = w := List.cons.inj ht
    simp only [split, show Lead.of '/' = .slash from rfl, List.nil_append]
    split
    · next after => exact absurd (hs.1 rfl '/' rfl) (by decide)
    · rfl

theorem splitNumeral_of_stops {n : Numeral} {c : Char} {w rest : Text} (ht : n.text = c :: w)
    (hw : n.WellFormed) (hs : (numeral n).StopsAt rest) :
    splitNumeral c (w ++ rest) = (n, rest) := by
  obtain ⟨whole, fraction⟩ := n
  obtain ⟨d, ds, rfl⟩ := List.exists_cons_of_ne_nil hw.whole_ne_nil
  have hds : ∀ x ∈ ds, x.isDigit = true := fun x hx => hw.whole_digits x (List.mem_cons_of_mem d hx)
  by_cases hf : fraction = []
  · subst hf
    simp only [Numeral.text, if_true, List.cons.injEq] at ht
    obtain ⟨rfl, rfl⟩ := ht
    simp only [splitNumeral, EndsRun.takeWhile_append hds hs.1, EndsRun.dropWhile_append hds hs.1,
      splitFraction_of_not_startsFraction (hs.2 rfl)]
  · simp only [Numeral.text, hf, if_false, List.cons_append, List.cons.injEq] at ht
    obtain ⟨rfl, rfl⟩ := ht
    have hp : EndsRun Char.isDigit ('.' :: fraction ++ rest) := .cons rfl _
    rw [List.append_assoc]
    simp only [splitNumeral, EndsRun.takeWhile_append hds hp, EndsRun.dropWhile_append hds hp,
      splitFraction_append hf hw.fraction_digits hs.1]

theorem splitQuoted_append {body : Text} (hb : '"' ∉ body) (rest : Text) :
    splitQuoted (body ++ '"' :: rest) = (quoted body, rest) := by
  have hbody : ∀ c ∈ body, decide (c ≠ '"') = true := fun c hc =>
    decide_eq_true fun e => hb (e ▸ hc)
  have hq : EndsRun (· ≠ '"') ('"' :: rest) := .cons rfl rest
  simp only [splitQuoted, EndsRun.dropWhile_append hbody hq, EndsRun.takeWhile_append hbody hq]

theorem splitQuoted_unclosed {body : Text} (hb : '"' ∉ body) :
    splitQuoted body = (unclosed body, []) := by
  have hbody : ∀ c ∈ body, decide (c ≠ '"') = true := fun c hc =>
    decide_eq_true fun e => hb (e ▸ hc)
  have : body.dropWhile (· ≠ '"') = [] := by
    simpa using EndsRun.dropWhile_append hbody (.nil _)
  simp only [splitQuoted, this]

/-- A well-formed piece that stops at `rest` is the first piece of its text and `rest`. -/
theorem split_of_stops {p : Piece} {c : Char} {w rest : Text} (ht : p.text = c :: w)
    (hw : p.WellFormed) (hs : p.StopsAt rest) : split c (w ++ rest) = (p, rest) := by
  cases p with
  | symbol s => exact split_symbol ht hs
  | comment body =>
    cases ht
    have hb : ∀ d ∈ body, decide (d ≠ '\n') = true := fun d hd =>
      decide_eq_true fun e => hw (e ▸ hd)
    simp only [split, show Lead.of '/' = .slash from rfl, List.cons_append,
      EndsRun.takeWhile_append hb hs, EndsRun.dropWhile_append hb hs]
  | blank d =>
    cases ht
    simp only [split, Lead.of_blank hw, List.nil_append]
  | quoted body =>
    obtain ⟨rfl, rfl⟩ : '"' = c ∧ body ++ ['"'] = w := List.cons.inj ht
    simp only [split, show Lead.of '"' = .quote from rfl, List.append_assoc, List.cons_append,
      List.nil_append, splitQuoted_append hw]
  | unclosed body =>
    cases ht
    cases hs
    simp only [split, show Lead.of '"' = .quote from rfl, List.append_nil, splitQuoted_unclosed hw]
  | numeral n =>
    simp only [split, Lead.of_digit (hw.head_digit ht), splitNumeral_of_stops ht hw hs]
  | word v =>
    obtain ⟨d, tail, rfl, hd, htail⟩ := hw
    cases ht
    simp only [split, Lead.of_letter hd, EndsRun.takeWhile_append htail hs,
      EndsRun.dropWhile_append htail hs]
  | foreign d =>
    cases ht
    simp only [split, show Lead.of c = .foreign from hw, List.nil_append]

end Piece

end LoxLex
