import LoxLex.Proofs.Piece.Stops

/-!
# Lexemes

The language in which tokens are written, said without the way they are read: `Number` and `Word`
are its two open classes of text, `Kind.Spells k w` says that `w` is a spelling of `k`, and
`Kind.literal w k` is the value that such a spelling has. The spellings of a kind are the texts of
the well-formed pieces that stand for it: `Piece.spells_of_token?` and `Piece.exists_of_spells`.
-/

namespace LoxLex

namespace Grammar

def IsDigit (c : Char) : Prop := '0' ≤ c ∧ c ≤ '9'

def IsLetter (c : Char) : Prop := 'A' ≤ c ∧ c ≤ 'Z' ∨ 'a' ≤ c ∧ c ≤ 'z' ∨ c = '_'

def blanks : Text := [' ', '\t', '\r', '\n']

def Digits (w : Text) : Prop := w ≠ [] ∧ ∀ c ∈ w, IsDigit c

/-- Digits, and if there is a point in them then with digits on both sides of it. -/
def Number (w : Text) : Prop :=
  Digits w ∨ ∃ whole fraction, w = whole ++ '.' :: fraction ∧ Digits whole ∧ Digits fraction

/-- A letter and any number of letters and digits. -/
def Word (w : Text) : Prop :=
  ∃ c tail, w = c :: tail ∧ IsLetter c ∧ ∀ d ∈ tail, IsLetter d ∨ IsDigit d

/-- The binary64 value nearest to a decimal number. -/
def decimalValue (w : Text) : Double :=
  let whole := w.takeWhile (· ≠ '.')
  let fraction := w.drop (whole.length + 1)
  Double.nearest (Nat.ofDigitChars 10 (whole ++ fraction) 0) (Nat.pow 10 fraction.length)

theorem isDigit_iff {c : Char} : c.isDigit = true ↔ IsDigit c := by
  simp [Char.isDigit, IsDigit, Char.le_def]

theorem isLetter_iff {c : Char} : isLetter c = true ↔ IsLetter c := isLetter_iff_le

theorem isBlank_iff {c : Char} : isBlank c = true ↔ c ∈ blanks := by
  simp [isBlank, blanks, or_assoc]

theorem isWordCharacter_iff {c : Char} : isWordCharacter c = true ↔ IsLetter c ∨ IsDigit c := by
  rw [isWordCharacter, Bool.or_eq_true, isLetter_iff, isDigit_iff]

theorem digits_iff {w : Text} : Digits w ↔ w ≠ [] ∧ ∀ c ∈ w, c.isDigit = true := by
  simp only [Digits, isDigit_iff]

theorem number_iff {w : Text} : Number w ↔ ∃ n : Numeral, n.WellFormed ∧ n.text = w := by
  constructor
  · rintro (hw | ⟨whole, fraction, rfl, hwhole, hfraction⟩)
    · rw [digits_iff] at hw
      exact ⟨⟨w, []⟩, ⟨hw.1, hw.2, by simp⟩, by simp [Numeral.text]⟩
    · rw [digits_iff] at hwhole hfraction
      exact ⟨⟨whole, fraction⟩, ⟨hwhole.1, hwhole.2, hfraction.2⟩,
        by simp [Numeral.text, hfraction.1]⟩
  · rintro ⟨⟨whole, fraction⟩, h, rfl⟩
    have hwhole : Digits whole := digits_iff.mpr ⟨h.whole_ne_nil, h.whole_digits⟩
    by_cases hf : fraction = []
    · exact .inl (by simpa [Numeral.text, hf] using hwhole)
    · exact .inr ⟨whole, fraction, by simp [Numeral.text, hf], hwhole,
        digits_iff.mpr ⟨hf, h.fraction_digits⟩⟩

theorem word_iff {w : Text} : Word w ↔ (Piece.word w).WellFormed := by
  simp only [Word, Piece.WellFormed, isLetter_iff, isWordCharacter_iff]

theorem decimalValue_text {n : Numeral} (h : n.WellFormed) : decimalValue n.text = n.value := by
  obtain ⟨whole, fraction⟩ := n
  have hwhole : ∀ c ∈ whole, decide (c ≠ '.') = true := fun c hc =>
    decide_eq_true (by rintro rfl; cases h.whole_digits _ hc)
  by_cases hf : fraction = []
  · subst hf
    have ht : whole.takeWhile (· ≠ '.') = whole := by
      simpa using EndsRun.takeWhile_append hwhole (.nil _)
    have hd : whole.drop (whole.length + 1) = [] := List.drop_of_length_le (Nat.le_succ _)
    simp only [decimalValue, Numeral.value, Numeral.text, if_true, ht, hd]
  · have ht : (whole ++ '.' :: fraction).takeWhile (· ≠ '.') = whole :=
      EndsRun.takeWhile_append hwhole (.cons rfl fraction)
    have hd : (whole ++ '.' :: fraction).drop (whole.length + 1) = fraction := by
      simp [List.drop_append]
    simp only [decimalValue, Numeral.value, Numeral.text, hf, if_false, ht, hd]

end Grammar

open Grammar

namespace Kind

/-- `w` is a way to write a token of the kind; the end of the input is not written. -/
def Spells (w : Text) : Kind → Prop
  | symbol s => w = s.spelling
  | identifier => Word w ∧ ∀ k, (w, k) ∉ Keyword.spellings
  | string => ∃ body, w = '"' :: body ++ ['"'] ∧ '"' ∉ body
  | number => Number w
  | keyword k => (w, k) ∈ Keyword.spellings
  | endOfInput => False

/-- The value of a token that is written as `w`: a string without its quotes, a number by its
digits. -/
def literal (w : Text) : Kind → Literal
  | string => .text (w.drop 1).dropLast
  | number => .number (decimalValue w)
  | _ => .none

theorem ofWord_eq_keyword_iff {w : Text} {k : Keyword} :
    ofWord w = keyword k ↔ (w, k) ∈ Keyword.spellings := by
  constructor
  · intro h
    unfold ofWord Keyword.ofWord? at h
    split at h
    · next k' hk =>
      cases h
      obtain ⟨l₁, l₂, e, -⟩ := List.lookup_eq_some_iff.mp hk
      simp [e]
    · cases h
  · intro h
    have key : ∀ entry ∈ Keyword.spellings, ofWord entry.1 = keyword entry.2 := by decide
    exact key _ h

theorem ofWord_eq_identifier_iff {w : Text} :
    ofWord w = identifier ↔ ∀ k, (w, k) ∉ Keyword.spellings := by
  constructor
  · intro h k hk
    rw [ofWord_eq_keyword_iff.mpr hk] at h
    cases h
  · intro h
    unfold ofWord
    split
    · next k hk => exact absurd (ofWord_eq_keyword_iff.mp (by simp [ofWord, hk])) (h k)
    · rfl

theorem spells_ofWord {w : Text} (h : Word w) : (ofWord w).Spells w := by
  cases hw : Keyword.ofWord? w with
  | some k =>
    have hk : ofWord w = keyword k := by simp [ofWord, hw]
    rw [hk]
    exact ofWord_eq_keyword_iff.mp hk
  | none =>
    have hi : ofWord w = identifier := by simp [ofWord, hw]
    rw [hi]
    exact ⟨h, ofWord_eq_identifier_iff.mp hi⟩

theorem literal_ofWord (w : Text) : (ofWord w).literal w = .none := by
  unfold ofWord
  split <;> rfl

theorem ofWord_ne_string (w : Text) : ofWord w ≠ .string := by
  unfold ofWord
  split <;> exact nofun

theorem word_of_mem_spellings {w : Text} {k : Keyword} (h : (w, k) ∈ Keyword.spellings) :
    Word w := by
  have key : ∀ entry ∈ Keyword.spellings,
      entry.1.head?.any isLetter = true ∧ entry.1.tail.all isWordCharacter = true := by decide
  obtain ⟨hletter, htail⟩ := key _ h
  cases w with
  | nil => cases hletter
  | cons c tail => exact word_iff.mpr ⟨c, tail, rfl, hletter, List.all_eq_true.mp htail⟩

end Kind

/-! ## The characters of lexemes -/

theorem Grammar.Word.lead_of_mem {w : Text} (h : Word w) {c : Char} (hc : c ∈ w) :
    Lead.of c = .letter ∨ Lead.of c = .digit := by
  obtain ⟨d, tail, rfl, hd, htail⟩ := h
  have hword : IsLetter c ∨ IsDigit c := by
    rcases List.mem_cons.mp hc with rfl | hc
    · exact .inl hd
    · exact htail c hc
  rcases hword with hletter | hdigit
  · exact .inl (Lead.of_letter (isLetter_iff.mpr hletter))
  · exact .inr (Lead.of_digit (isDigit_iff.mpr hdigit))

theorem Grammar.Number.lead_of_mem {w : Text} (h : Number w) {c : Char} (hc : c ∈ w) :
    Lead.of c = .digit ∨ c = '.' := by
  have hdigits {v : Text} (hv : Digits v) (hc : c ∈ v) : Lead.of c = .digit :=
    Lead.of_digit (isDigit_iff.mpr (hv.2 c hc))
  rcases h with hw | ⟨whole, fraction, rfl, hwhole, hfraction⟩
  · exact .inl (hdigits hw hc)
  · rcases List.mem_append.mp hc with hc | hc
    · exact .inl (hdigits hwhole hc)
    · rcases List.mem_cons.mp hc with rfl | hc
      · exact .inr rfl
      · exact .inl (hdigits hfraction hc)

/-- Only strings hold blanks and characters that start nothing. -/
theorem Kind.Spells.lead_of_mem {k : Kind} {w : Text} (h : k.Spells w) (hk : k ≠ .string)
    {c : Char} (hc : c ∈ w) : Lead.of c ≠ .blank ∧ Lead.of c ≠ .foreign := by
  have hword (hw : Word w) : Lead.of c ≠ .blank ∧ Lead.of c ≠ .foreign := by
    rcases hw.lead_of_mem hc with e | e <;> rw [e] <;> exact ⟨nofun, nofun⟩
  cases k with
  | symbol s =>
    -- Decided along the spelling: `∀ c ∈ _` may be decided over all characters instead.
    have hall : s.spelling.all
        (fun c => decide (Lead.of c ≠ .blank ∧ Lead.of c ≠ .foreign)) = true := by
      cases s <;> decide
    have hw : w = s.spelling := h
    exact of_decide_eq_true (List.all_eq_true.mp hall c (hw ▸ hc))
  | identifier => exact hword h.1
  | string => exact absurd rfl hk
  | number =>
    have hw : Number w := h
    rcases hw.lead_of_mem hc with e | rfl
    · rw [e]
      exact ⟨nofun, nofun⟩
    · decide
  | keyword k => exact hword (word_of_mem_spellings h)
  | endOfInput => cases h

namespace Piece

theorem token?_quoted (body : Text) :
    (quoted body).token? = some (.string, Kind.literal (quoted body).text .string) := by
  simp [token?, text, Kind.literal]

theorem token?_numeral {n : Numeral} (h : n.WellFormed) :
    (numeral n).token? = some (.number, Kind.literal n.text .number) := by
  rw [token?, Kind.literal, decimalValue_text h]

/-- The kind and the value of a token can be told from how it is written. -/
theorem spells_of_token? {p : Piece} {k : Kind} {v : Literal} (h : p.WellFormed)
    (ht : p.token? = some (k, v)) : k.Spells p.text ∧ v = k.literal p.text := by
  cases p with
  | symbol s =>
    cases ht
    exact ⟨rfl, rfl⟩
  | quoted body =>
    cases (token?_quoted body).symm.trans ht
    exact ⟨⟨body, rfl, h⟩, rfl⟩
  | numeral n =>
    cases (token?_numeral h).symm.trans ht
    exact ⟨number_iff.mpr ⟨n, h, rfl⟩, rfl⟩
  | word w =>
    cases ht
    exact ⟨Kind.spells_ofWord (word_iff.mpr h), (Kind.literal_ofWord w).symm⟩
  | comment _ | blank _ | unclosed _ | foreign _ => cases ht

theorem WellFormed.lead_of_mem {p : Piece} (h : p.WellFormed) {k : Kind} {v : Literal}
    (ht : p.token? = some (k, v)) (hk : k ≠ .string) {c : Char} (hc : c ∈ p.text) :
    Lead.of c ≠ .blank ∧ Lead.of c ≠ .foreign :=
  (spells_of_token? h ht).1.lead_of_mem hk hc

theorem exists_of_spells {w : Text} {k : Kind} (h : k.Spells w) :
    ∃ p : Piece, p.WellFormed ∧ p.text = w ∧ p.token? = some (k, k.literal w) := by
  cases k with
  | symbol s => exact ⟨symbol s, trivial, h.symm, rfl⟩
  | identifier =>
    exact ⟨word w, word_iff.mp h.1, rfl, by rw [token?, Kind.ofWord_eq_identifier_iff.mpr h.2]; rfl⟩
  | string =>
    obtain ⟨body, rfl, hb⟩ := h
    exact ⟨quoted body, hb, rfl, token?_quoted body⟩
  | number =>
    obtain ⟨n, hn, rfl⟩ := number_iff.mp h
    exact ⟨numeral n, hn, rfl, token?_numeral hn⟩
  | keyword k =>
    exact ⟨word w, word_iff.mp (Kind.word_of_mem_spellings h), rfl,
      by rw [token?, Kind.ofWord_eq_keyword_iff.mpr h]; rfl⟩
  | endOfInput => cases h

end Piece

end LoxLex
