import Mathlib.Tactic.ByContra
import LoxLex.Text.Utf8

/-!
# Byte sequences

What the table of followers admits: `IsSequence w` says that `w` is a lead byte with all that must
follow it. These are the bytes of the characters and no others (`isSequence_iff`). Of the bits of a
number, laid out over one to four bytes, they are those that hold a code point in the shortest form
(`isSequence_sequence_iff`).
-/

namespace LoxLex.Utf8

/-! ## The table of followers in numbers -/

theorem toNat_ofNat {n : Nat} (h : n < 256) : (UInt8.ofNat n).toNat = n := by
  simp [Nat.mod_eq_of_lt h]

theorem ByteRange.contains_iff {r : ByteRange} {b : UInt8} :
    r.contains b = true ↔ r.first.toNat ≤ b.toNat ∧ b.toNat ≤ r.last.toNat := by
  simp [contains, UInt8.le_iff_toNat_le]

/-- The range of the byte after a lead byte. -/
def second (lead : UInt8) : ByteRange :=
  if lead = 0xE0 then ⟨0xA0, 0xBF⟩
  else if lead = 0xED then ⟨0x80, 0x9F⟩
  else if lead = 0xF0 then ⟨0x90, 0xBF⟩
  else if lead = 0xF4 then ⟨0x80, 0x8F⟩
  else continuation

theorem contains_continuation {b : UInt8} :
    continuation.contains b = true ↔ 0x80 ≤ b.toNat ∧ b.toNat ≤ 0xBF := ByteRange.contains_iff

theorem contains_second {lead b : UInt8} :
    (second lead).contains b = true ↔ 0x80 ≤ b.toNat ∧ b.toNat ≤ 0xBF ∧
      (lead.toNat = 0xE0 → 0xA0 ≤ b.toNat) ∧ (lead.toNat = 0xED → b.toNat ≤ 0x9F) ∧
      (lead.toNat = 0xF0 → 0x90 ≤ b.toNat) ∧ (lead.toNat = 0xF4 → b.toNat ≤ 0x8F) := by
  rw [ByteRange.contains_iff]
  unfold second
  simp only [← UInt8.toNat_inj, UInt8.reduceToNat]
  repeat' split
  all_goals simp only [continuation, UInt8.reduceToNat]; omega

theorem followers_eq (lead : UInt8) :
    followers lead =
      if lead.toNat < 0x80 then some []
      else if lead.toNat < 0xC2 then none
      else if lead.toNat < 0xE0 then some [continuation]
      else if lead.toNat < 0xF0 then some [second lead, continuation]
      else if lead.toNat < 0xF5 then some [second lead, continuation, continuation]
      else none := by
  unfold followers second
  simp only [UInt8.lt_iff_toNat_lt, ← UInt8.toNat_inj, UInt8.reduceToNat]
  repeat' split
  all_goals first | rfl | omega

/-! ## Sequences -/

/-- The bytes lie in the ranges one by one, and there are no more of them than ranges. -/
def Admits : List ByteRange → Bytes → Prop
  | _, [] => True
  | [], _ :: _ => False
  | r :: rs, b :: bs => r.contains b = true ∧ Admits rs bs

/-- A lead byte and all that must follow it. -/
def IsSequence : Bytes → Prop
  | [] => False
  | lead :: tail =>
    ∃ ranges, followers lead = some ranges ∧ Admits ranges tail ∧ tail.length = ranges.length

/-- The bits of a number in the form of a sequence with so many bytes behind the lead byte, also
where the number is not written so. -/
def sequence : Nat → Nat → Bytes
  | 0, n => [.ofNat n]
  | 1, n => [.ofNat (0xC0 + n / 64), .ofNat (0x80 + n % 64)]
  | 2, n => [.ofNat (0xE0 + n / 4096), .ofNat (0x80 + n / 64 % 64), .ofNat (0x80 + n % 64)]
  | _ + 3, n => [.ofNat (0xF0 + n / 262144), .ofNat (0x80 + n / 4096 % 64),
      .ofNat (0x80 + n / 64 % 64), .ofNat (0x80 + n % 64)]

/-- The least number that does not fit into a sequence with fewer bytes behind the lead byte. -/
def least : Nat → Nat
  | 0 => 0
  | 1 => 0x80
  | 2 => 0x800
  | 3 => 0x10000
  | _ + 4 => 0x200000

/-- A lead byte says how many bytes follow. -/
theorem followers_cases {lead : UInt8} {ranges : List ByteRange}
    (h : followers lead = some ranges) :
    lead.toNat < 0x80 ∧ ranges = [] ∨
    (0xC2 ≤ lead.toNat ∧ lead.toNat < 0xE0) ∧ ranges = [continuation] ∨
    (0xE0 ≤ lead.toNat ∧ lead.toNat < 0xF0) ∧ ranges = [second lead, continuation] ∨
    (0xF0 ≤ lead.toNat ∧ lead.toNat < 0xF5) ∧
      ranges = [second lead, continuation, continuation] := by
  rw [followers_eq] at h
  repeat' split at h
  all_goals cases h
  · exact .inl ⟨‹_›, rfl⟩
  · exact .inr (.inl ⟨by omega, rfl⟩)
  · exact .inr (.inr (.inl ⟨by omega, rfl⟩))
  · exact .inr (.inr (.inr ⟨by omega, rfl⟩))

theorem isSequence_one {a : UInt8} : IsSequence [a] ↔ a.toNat < 0x80 := by
  constructor
  · rintro ⟨ranges, h, -, hl⟩
    obtain ⟨ha, -⟩ | ⟨-, rfl⟩ | ⟨-, rfl⟩ | ⟨-, rfl⟩ := followers_cases h
    · exact ha
    all_goals cases hl
  · intro ha
    exact ⟨[], by rw [followers_eq, if_pos ha], trivial, rfl⟩

theorem isSequence_two {a b : UInt8} : IsSequence [a, b] ↔
    (0xC2 ≤ a.toNat ∧ a.toNat < 0xE0) ∧ continuation.contains b = true := by
  constructor
  · rintro ⟨ranges, h, hb, hl⟩
    obtain ⟨-, rfl⟩ | ⟨ha, rfl⟩ | ⟨-, rfl⟩ | ⟨-, rfl⟩ := followers_cases h
    · cases hl
    · exact ⟨ha, hb.1⟩
    all_goals cases hl
  · rintro ⟨ha, hb⟩
    refine ⟨[continuation], ?_, ⟨hb, trivial⟩, rfl⟩
    rw [followers_eq, if_neg (by omega), if_neg (by omega), if_pos (by omega)]

theorem isSequence_three {a b c : UInt8} : IsSequence [a, b, c] ↔
    (0xE0 ≤ a.toNat ∧ a.toNat < 0xF0) ∧ (second a).contains b = true ∧
      continuation.contains c = true := by
  constructor
  · rintro ⟨ranges, h, hb, hl⟩
    obtain ⟨-, rfl⟩ | ⟨-, rfl⟩ | ⟨ha, rfl⟩ | ⟨-, rfl⟩ := followers_cases h
    · cases hl
    · cases hl
    · exact ⟨ha, hb.1, hb.2.1⟩
    · cases hl
  · rintro ⟨ha, hb, hc⟩
    refine ⟨[second a, continuation], ?_, ⟨hb, hc, trivial⟩, rfl⟩
    rw [followers_eq, if_neg (by omega), if_neg (by omega), if_neg (by omega),
      if_pos (by omega)]

theorem isSequence_four {a b c d : UInt8} : IsSequence [a, b, c, d] ↔
    (0xF0 ≤ a.toNat ∧ a.toNat < 0xF5) ∧ (second a).contains b = true ∧
      continuation.contains c = true ∧ continuation.contains d = true := by
  constructor
  · rintro ⟨ranges, h, hb, hl⟩
    obtain ⟨-, rfl⟩ | ⟨-, rfl⟩ | ⟨-, rfl⟩ | ⟨ha, rfl⟩ := followers_cases h
    · cases hl
    · cases hl
    · cases hl
    · exact ⟨ha, hb.1, hb.2.1, hb.2.2.1⟩
  · rintro ⟨ha, hb, hc, hd⟩
    refine ⟨[second a, continuation, continuation], ?_, ⟨hb, hc, hd, trivial⟩, rfl⟩
    rw [followers_eq, if_neg (by omega), if_neg (by omega), if_neg (by omega),
      if_neg (by omega), if_pos (by omega)]

/-- Of the sequences of bits those are in order that hold a code point in the shortest form. -/
theorem isSequence_sequence_iff {k n : Nat} (hk : k ≤ 3) (hn : n < least (k + 1)) :
    IsSequence (sequence k n) ↔ least k ≤ n ∧ n.isValidChar := by
  unfold Nat.isValidChar
  match k, hk with
  | 0, _ =>
    simp only [least] at hn ⊢
    rw [sequence, isSequence_one, toNat_ofNat (by omega)]
    omega
  | 1, _ =>
    simp only [least] at hn ⊢
    rw [sequence, isSequence_two, contains_continuation, toNat_ofNat (by omega),
      toNat_ofNat (by omega)]
    omega
  | 2, _ =>
    simp only [least] at hn ⊢
    rw [sequence, isSequence_three, contains_second, contains_continuation,
      toNat_ofNat (by omega), toNat_ofNat (by omega), toNat_ofNat (by omega)]
    omega
  | 3, _ =>
    simp only [least] at hn ⊢
    rw [sequence, isSequence_four, contains_second, contains_continuation, contains_continuation,
      toNat_ofNat (by omega), toNat_ofNat (by omega), toNat_ofNat (by omega),
      toNat_ofNat (by omega)]
    omega

theorem ofNat_eq {n : Nat} {b : UInt8} (h : n = b.toNat) : UInt8.ofNat n = b := by
  rw [h, UInt8.ofNat_toNat]

/-- All that is in order is a sequence of bits. -/
theorem exists_sequence {w : Bytes} (h : IsSequence w) :
    ∃ k n, k ≤ 3 ∧ n < least (k + 1) ∧ w = sequence k n := by
  match w, h with
  | [a], h =>
    rw [isSequence_one] at h
    exact ⟨0, a.toNat, by omega, h, by rw [sequence, UInt8.ofNat_toNat]⟩
  | [a, b], h =>
    rw [isSequence_two, contains_continuation] at h
    refine ⟨1, (a.toNat - 0xC0) * 64 + (b.toNat - 0x80), by omega, ?_, ?_⟩
    · simp only [least]
      omega
    · rw [sequence, ofNat_eq (b := a) (by omega), ofNat_eq (b := b) (by omega)]
  | [a, b, c], h =>
    rw [isSequence_three, contains_second, contains_continuation] at h
    refine ⟨2, (a.toNat - 0xE0) * 4096 + (b.toNat - 0x80) * 64 + (c.toNat - 0x80), by omega,
      ?_, ?_⟩
    · simp only [least]
      omega
    · rw [sequence, ofNat_eq (b := a) (by omega), ofNat_eq (b := b) (by omega),
        ofNat_eq (b := c) (by omega)]
  | [a, b, c, d], h =>
    rw [isSequence_four, contains_second, contains_continuation, contains_continuation] at h
    refine ⟨3, (a.toNat - 0xF0) * 262144 + (b.toNat - 0x80) * 4096 + (c.toNat - 0x80) * 64 +
      (d.toNat - 0x80), by omega, ?_, ?_⟩
    · simp only [least]
      omega
    · rw [sequence, ofNat_eq (b := a) (by omega), ofNat_eq (b := b) (by omega),
        ofNat_eq (b := c) (by omega), ofNat_eq (b := d) (by omega)]
  | a :: b :: c :: d :: e :: w, ⟨ranges, h, _, hl⟩ =>
    obtain ⟨-, rfl⟩ | ⟨-, rfl⟩ | ⟨-, rfl⟩ | ⟨-, rfl⟩ := followers_cases h
    all_goals cases hl

/-- The code point of a sequence is the number whose bits it holds. -/
theorem codePoint_sequence {k n : Nat} {lead : UInt8} {tail : Bytes} (hk : k ≤ 3)
    (hn : n < least (k + 1)) (h : sequence k n = lead :: tail) : codePoint lead tail = n := by
  match k, hk with
  | 0, _ =>
    cases h
    simp only [least] at hn
    simp only [codePoint, if_true, List.foldl_nil]
    rw [toNat_ofNat (by omega)]
  | 1, _ =>
    cases h
    simp only [least] at hn
    simp only [codePoint, List.foldl_cons, List.foldl_nil, List.length_cons, List.length_nil,
      reduceCtorEq, if_false, show Nat.pow 2 (6 - (0 + 1)) = 32 from rfl]
    rw [toNat_ofNat (by omega), toNat_ofNat (by omega)]
    omega
  | 2, _ =>
    cases h
    simp only [least] at hn
    simp only [codePoint, List.foldl_cons, List.foldl_nil, List.length_cons, List.length_nil,
      reduceCtorEq, if_false, show Nat.pow 2 (6 - (0 + 1 + 1)) = 16 from rfl]
    rw [toNat_ofNat (by omega), toNat_ofNat (by omega), toNat_ofNat (by omega)]
    omega
  | 3, _ =>
    cases h
    simp only [least] at hn
    simp only [codePoint, List.foldl_cons, List.foldl_nil, List.length_cons, List.length_nil,
      reduceCtorEq, if_false, show Nat.pow 2 (6 - (0 + 1 + 1 + 1)) = 8 from rfl]
    rw [toNat_ofNat (by omega), toNat_ofNat (by omega), toNat_ofNat (by omega),
      toNat_ofNat (by omega)]
    omega

theorem toNat_lt (c : Char) : c.toNat < 0x110000 := by
  have := c.valid
  unfold UInt32.isValidChar Nat.isValidChar at this
  unfold Char.toNat
  omega

/-- A character is written in the shortest form. -/
theorem encodeChar_eq (c : Char) :
    ∃ k, k ≤ 3 ∧ least k ≤ c.toNat ∧ c.toNat < least (k + 1) ∧
      String.utf8EncodeChar c = sequence k c.toNat := by
  have hc := toNat_lt c
  unfold String.utf8EncodeChar
  simp only [show c.val.toNat = c.toNat from rfl]
  split
  · exact ⟨0, by omega, Nat.zero_le _, by simp only [least]; omega, rfl⟩
  · split
    · refine ⟨1, by omega, by simp only [least]; omega, by simp only [least]; omega, ?_⟩
      rw [sequence, show c.toNat / 64 % 32 + 192 = 0xC0 + c.toNat / 64 by omega,
        Nat.add_comm (c.toNat % 64)]
    · split
      · refine ⟨2, by omega, by simp only [least]; omega, by simp only [least]; omega, ?_⟩
        rw [sequence, show c.toNat / 4096 % 16 + 224 = 0xE0 + c.toNat / 4096 by omega,
          Nat.add_comm (c.toNat / 64 % 64), Nat.add_comm (c.toNat % 64)]
      · refine ⟨3, by omega, by simp only [least]; omega, by simp only [least]; omega, ?_⟩
        rw [sequence, show c.toNat / 262144 % 8 + 240 = 0xF0 + c.toNat / 262144 by omega,
          Nat.add_comm (c.toNat / 4096 % 64), Nat.add_comm (c.toNat / 64 % 64),
          Nat.add_comm (c.toNat % 64)]

theorem isValidChar_toNat (c : Char) : c.toNat.isValidChar := c.valid

theorem isSequence_encodeChar (c : Char) : IsSequence (String.utf8EncodeChar c) := by
  obtain ⟨k, hk, hleast, hn, e⟩ := encodeChar_eq c
  rw [e, isSequence_sequence_iff hk hn]
  exact ⟨hleast, isValidChar_toNat c⟩

theorem codePoint_encodeChar {c : Char} {lead : UInt8} {tail : Bytes}
    (h : String.utf8EncodeChar c = lead :: tail) : codePoint lead tail = c.toNat := by
  obtain ⟨k, hk, -, hn, e⟩ := encodeChar_eq c
  exact codePoint_sequence hk hn (e ▸ h)

theorem le_of_least_le {j k n : Nat} (hj : j ≤ 3) (h : least j ≤ n) (hn : n < least (k + 1)) :
    j ≤ k := by
  have mono : ∀ j ≤ 3, ∀ i ≤ j, least i ≤ least j := by decide
  by_contra hlt
  have := mono j hj (k + 1) (by omega)
  omega

theorem exists_char {w : Bytes} (h : IsSequence w) : ∃ c, String.utf8EncodeChar c = w := by
  obtain ⟨k, n, hk, hn, rfl⟩ := exists_sequence h
  obtain ⟨hleast, hvalid⟩ := (isSequence_sequence_iff hk hn).mp h
  have hc : (Char.ofNat n).toNat = n := by
    rw [Char.ofNat, dif_pos hvalid]
    rfl
  obtain ⟨j, hj, hleast', hn', e⟩ := encodeChar_eq (Char.ofNat n)
  rw [hc] at hleast' hn' e
  have : j = k := Nat.le_antisymm (le_of_least_le hj hleast' hn) (le_of_least_le hk hleast hn')
  exact ⟨Char.ofNat n, this ▸ e⟩

theorem isSequence_iff {w : Bytes} : IsSequence w ↔ ∃ c, String.utf8EncodeChar c = w :=
  ⟨exists_char, fun ⟨c, e⟩ => e ▸ isSequence_encodeChar c⟩

/-- The lead byte of a sequence of bits says how long it is. -/
theorem length_followers_sequence {k n : Nat} {lead : UInt8} {tail : Bytes}
    {ranges : List ByteRange} (hk : k ≤ 3) (hn : n < least (k + 1))
    (h : sequence k n = lead :: tail) (hranges : followers lead = some ranges) :
    ranges.length = k ∧ tail.length = k := by
  have hcases := followers_cases hranges
  match k, hk with
  | 0, _ =>
    cases h
    simp only [least] at hn
    rw [toNat_ofNat (by omega)] at hcases
    obtain ⟨-, rfl⟩ | ⟨hlead, -⟩ | ⟨hlead, -⟩ | ⟨hlead, -⟩ := hcases
    · exact ⟨rfl, rfl⟩
    all_goals omega
  | 1, _ =>
    cases h
    simp only [least] at hn
    rw [toNat_ofNat (by omega)] at hcases
    obtain ⟨hlead, -⟩ | ⟨-, rfl⟩ | ⟨hlead, -⟩ | ⟨hlead, -⟩ := hcases
    · omega
    · exact ⟨rfl, rfl⟩
    all_goals omega
  | 2, _ =>
    cases h
    simp only [least] at hn
    rw [toNat_ofNat (by omega)] at hcases
    obtain ⟨hlead, -⟩ | ⟨hlead, -⟩ | ⟨-, rfl⟩ | ⟨hlead, -⟩ := hcases
    · omega
    · omega
    · exact ⟨rfl, rfl⟩
    · omega
  | 3, _ =>
    cases h
    simp only [least] at hn
    rw [toNat_ofNat (by omega)] at hcases
    obtain ⟨hlead, -⟩ | ⟨hlead, -⟩ | ⟨hlead, -⟩ | ⟨-, rfl⟩ := hcases
    · omega
    · omega
    · omega
    · exact ⟨rfl, rfl⟩

/-- A sequence of bits in a longer form than needed, or of no code point, begins no character,
whatever comes after it. -/
theorem not_encodeChar_prefix_sequence {k n : Nat} (hk : k ≤ 3) (hn : n < least (k + 1))
    (hbad : n < least k ∨ ¬n.isValidChar) (rest : Bytes) (c : Char) :
    ¬String.utf8EncodeChar c <+: sequence k n ++ rest := by
  rintro ⟨more, h⟩
  have hc := isSequence_encodeChar c
  obtain ⟨lead, tail, e⟩ := List.exists_cons_of_ne_nil (String.utf8EncodeChar_ne_nil (c := c))
  obtain ⟨lead', tail', e'⟩ : ∃ lead' tail', sequence k n = lead' :: tail' := by
    match k, hk with
    | 0, _ | 1, _ | 2, _ | 3, _ => exact ⟨_, _, rfl⟩
  rw [e] at hc
  have h' := h
  rw [e, e', List.cons_append, List.cons_append, List.cons.injEq] at h'
  obtain ⟨rfl, htail⟩ := h'
  obtain ⟨ranges, hranges, -, hl⟩ := hc
  obtain ⟨hk', hl'⟩ := length_followers_sequence hk hn e' hranges
  obtain ⟨rfl, -⟩ := List.append_inj htail (by omega)
  have hsequence : IsSequence (sequence k n) := by
    rw [e', ← e]
    exact isSequence_encodeChar c
  obtain ⟨hleast, hvalid⟩ := (isSequence_sequence_iff hk hn).mp hsequence
  exact hbad.elim (by omega) (· hvalid)

end LoxLex.Utf8
