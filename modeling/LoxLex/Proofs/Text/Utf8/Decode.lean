import Mathlib.Order.Bounds.Basic
import LoxLex.Proofs.Text.Utf8.Sequence

/-!
# Strict decoding

Decoding accepts the encoded texts and nothing else, and gives back the text (`decode_eq_ok_iff`).
Where it fails it has read a text up to a sequence that is not in order
(`decode_cases`), and no other reading goes further: `Fault.Describes` says what the fault tells
about the bytes, and `exists_of_not_wellFormed` that it does so of all bytes that are no text.
-/

namespace LoxLex.Utf8

/-! ## Admitted bytes -/

theorem Admits.nil (ranges : List ByteRange) : Admits ranges [] := by
  cases ranges <;> trivial

theorem Admits.length_le {ranges : List ByteRange} {w : Bytes} (h : Admits ranges w) :
    w.length ≤ ranges.length := by
  induction ranges generalizing w with
  | nil =>
    cases w with
    | nil => exact Nat.le_refl 0
    | cons b w => cases h
  | cons r rs ih =>
    cases w with
    | nil => exact Nat.zero_le _
    | cons b w => exact Nat.succ_le_succ (ih h.2)

theorem Admits.mono {ranges : List ByteRange} {v w : Bytes} (h : Admits ranges w)
    (hv : v <+: w) : Admits ranges v := by
  induction ranges generalizing v w with
  | nil =>
    cases w with
    | nil => rwa [List.prefix_nil.mp hv]
    | cons b w => cases h
  | cons r rs ih =>
    cases v with
    | nil => trivial
    | cons b v =>
      obtain ⟨more, rfl⟩ := hv
      exact ⟨h.1, ih h.2 (List.prefix_append v more)⟩

theorem admitted_prefix_bytes (ranges : List ByteRange) (bytes : Bytes) :
    admitted ranges bytes <+: bytes := by
  fun_induction admitted ranges bytes with
  | case1 r rs b bs h ih => exact List.cons_prefix_cons.mpr ⟨rfl, ih⟩
  | case2 => exact List.nil_prefix
  | case3 => exact List.nil_prefix

theorem admits_admitted (ranges : List ByteRange) (bytes : Bytes) :
    Admits ranges (admitted ranges bytes) := by
  fun_induction admitted ranges bytes with
  | case1 r rs b bs h ih => exact ⟨h, ih⟩
  | case2 => trivial
  | case3 => exact Admits.nil _

/-- No more bytes at the front lie in the ranges. -/
theorem Admits.length_le_admitted {ranges : List ByteRange} {w bytes : Bytes}
    (h : Admits ranges w) (hw : w <+: bytes) : w.length ≤ (admitted ranges bytes).length := by
  induction ranges generalizing w bytes with
  | nil => exact Nat.le_trans h.length_le (Nat.zero_le _)
  | cons r rs ih =>
    cases w with
    | nil => exact Nat.zero_le _
    | cons b w =>
      obtain ⟨more, rfl⟩ := hw
      rw [List.cons_append, admitted, if_pos h.1]
      exact Nat.succ_le_succ (ih h.2 (List.prefix_append w more))

theorem admitted_append {ranges : List ByteRange} {w : Bytes} (h : Admits ranges w)
    (hl : w.length = ranges.length) (more : Bytes) : admitted ranges (w ++ more) = w := by
  have hle := (admits_admitted ranges (w ++ more)).length_le
  have hge := h.length_le_admitted (List.prefix_append w more)
  have := List.prefix_of_prefix_length_le (admitted_prefix_bytes ranges (w ++ more))
    (List.prefix_append w more) (by omega)
  exact this.eq_of_length (by omega)

/-- The ranges behind a lead byte are not empty. -/
theorem first_of_mem_followers {lead : UInt8} {ranges : List ByteRange}
    (h : followers lead = some ranges) : ∀ r ∈ ranges, r.contains r.first = true := by
  have hsecond : (second lead).contains (second lead).first = true := by
    unfold second
    repeat' split
    all_goals decide
  have hcontinuation : continuation.contains continuation.first = true := by decide
  obtain ⟨-, rfl⟩ | ⟨-, rfl⟩ | ⟨-, rfl⟩ | ⟨-, rfl⟩ := followers_cases h
  all_goals simp [hsecond, hcontinuation]

theorem Admits.exists_append {ranges : List ByteRange} {w : Bytes} (h : Admits ranges w)
    (hr : ∀ r ∈ ranges, r.contains r.first = true) :
    ∃ more, Admits ranges (w ++ more) ∧ (w ++ more).length = ranges.length := by
  induction ranges generalizing w with
  | nil =>
    cases w with
    | nil => exact ⟨[], trivial, rfl⟩
    | cons b w => cases h
  | cons r rs ih =>
    have hrs : ∀ q ∈ rs, q.contains q.first = true := fun q hq => hr q (List.mem_cons_of_mem r hq)
    cases w with
    | nil =>
      obtain ⟨more, hmore, hl⟩ := ih (Admits.nil rs) hrs
      exact ⟨r.first :: more, ⟨hr r List.mem_cons_self, hmore⟩, congrArg Nat.succ hl⟩
    | cons b w =>
      obtain ⟨more, hmore, hl⟩ := ih h.2 hrs
      exact ⟨more, ⟨h.1, hmore⟩, congrArg Nat.succ hl⟩

/-! ## One character -/

theorem decodeChar_of_encodeChar {c : Char} {lead : UInt8} {tail : Bytes}
    (h : String.utf8EncodeChar c = lead :: tail) (start : Nat) (more : Bytes) :
    decodeChar start lead (tail ++ more) = .ok (c, tail.length) := by
  obtain ⟨ranges, hranges, ha, hl⟩ : IsSequence (lead :: tail) := h ▸ isSequence_encodeChar c
  have hc : Char.ofNat (codePoint lead tail) = c := by
    rw [codePoint_encodeChar h]
    exact Char.ofNat_toNat c
  simp only [decodeChar, hranges, admitted_append ha hl, hl, if_true, hc]

theorem encodeChar_of_decodeChar {start n : Nat} {lead : UInt8} {rest : Bytes} {c : Char}
    (h : decodeChar start lead rest = .ok (c, n)) :
    ∃ tail more, String.utf8EncodeChar c = lead :: tail ∧ rest = tail ++ more ∧ n = tail.length := by
  unfold decodeChar at h
  split at h
  · cases h
  · next ranges hranges =>
    dsimp only at h
    split at h
    · next hl =>
      obtain ⟨more, hmore⟩ := admitted_prefix_bytes ranges rest
      have hsequence : IsSequence (lead :: admitted ranges rest) :=
        ⟨ranges, hranges, admits_admitted ranges rest, hl⟩
      obtain ⟨d, hd⟩ := isSequence_iff.mp hsequence
      cases h
      refine ⟨_, more, ?_, hmore.symm, rfl⟩
      rw [codePoint_encodeChar hd, Char.ofNat_toNat]
      exact hd
    · cases h

/-- Why there is no character: the byte starts none, or too few of its followers are in order. -/
theorem decodeChar_eq_error {start : Nat} {lead : UInt8} {rest : Bytes} {f : Fault}
    (h : decodeChar start lead rest = .error f) :
    followers lead = none ∧ f = ⟨start, lead, 1, .invalidStart⟩ ∨
      ∃ ranges, followers lead = some ranges ∧
        f = ⟨start, lead, 1 + (admitted ranges rest).length,
          if (admitted ranges rest).length = rest.length then .unexpectedEnd
          else .invalidContinuation⟩ := by
  unfold decodeChar at h
  split at h
  · next hnone =>
    cases h
    exact .inl ⟨hnone, rfl⟩
  · next ranges hranges =>
    dsimp only at h
    split at h
    · cases h
    · cases h
      exact .inr ⟨ranges, hranges, rfl⟩

/-! ## Whole texts -/

theorem encode_cons (c : Char) (s : Text) : encode (c :: s) = String.utf8EncodeChar c ++ encode s :=
  List.flatMap_cons

theorem decodeFrom_cons (before : Text) (start : Nat) (lead : UInt8) (rest : Bytes) :
    decodeFrom before start (lead :: rest) =
      match decodeChar start lead rest with
      | .error fault => .error fault
      | .ok (c, n) => decodeFrom (c :: before) (start + 1 + n) (rest.drop n) := by
  cases h : decodeChar start lead rest with
  | error fault => simp only [decodeFrom, h]
  | ok r => simp only [decodeFrom, h]

theorem decodeFrom_encode_append (before s : Text) (start : Nat) (bytes : Bytes) :
    decodeFrom before start (encode s ++ bytes) =
      decodeFrom (s.reverse ++ before) (start + (encode s).length) bytes := by
  induction s generalizing before start with
  | nil => rfl
  | cons c s ih =>
    obtain ⟨lead, tail, e⟩ := List.exists_cons_of_ne_nil (String.utf8EncodeChar_ne_nil (c := c))
    rw [encode_cons, e, List.append_assoc, List.cons_append, decodeFrom_cons,
      decodeChar_of_encodeChar e]
    dsimp only
    rw [List.drop_left, ih, List.reverse_cons, List.append_assoc, List.length_append,
      List.length_cons, List.singleton_append,
      show start + (tail.length + 1 + (encode s).length) =
        start + 1 + tail.length + (encode s).length by omega]

theorem decode_encode_append (s : Text) (bytes : Bytes) :
    decode (encode s ++ bytes) = decodeFrom s.reverse (encode s).length bytes := by
  rw [decode, decodeFrom_encode_append, List.append_nil, Nat.zero_add]

theorem decode_encode (s : Text) : decode (encode s) = .ok s := by
  have := decode_encode_append s []
  rwa [List.append_nil, decodeFrom, List.reverse_reverse] at this

/-- No character is written as the beginning of another one. -/
theorem encodeChar_append_inj {c d : Char} {v w : Bytes}
    (h : String.utf8EncodeChar c ++ v = String.utf8EncodeChar d ++ w) : c = d ∧ v = w := by
  obtain ⟨lead, tail, ec⟩ := List.exists_cons_of_ne_nil (String.utf8EncodeChar_ne_nil (c := c))
  obtain ⟨lead', tail', ed⟩ := List.exists_cons_of_ne_nil (String.utf8EncodeChar_ne_nil (c := d))
  have h' := h
  rw [ec, ed, List.cons_append, List.cons_append, List.cons.injEq] at h'
  obtain ⟨rfl, htail⟩ := h'
  have hc := decodeChar_of_encodeChar ec 0 v
  rw [htail, decodeChar_of_encodeChar ed 0 w] at hc
  obtain rfl : d = c := congrArg Prod.fst (Except.ok.inj hc)
  exact ⟨rfl, List.append_cancel_left h⟩

/-- All bytes are those of a text and perhaps more that begin with no character. -/
theorem exists_encode_append (b : Bytes) :
    ∃ s rest, b = encode s ++ rest ∧ ∀ c, ¬String.utf8EncodeChar c <+: rest := by
  induction hn : b.length using Nat.strongRecOn generalizing b with
  | ind n ih =>
    by_cases hb : ∃ c, String.utf8EncodeChar c <+: b
    · obtain ⟨c, more, rfl⟩ := hb
      have := List.length_pos_iff.mpr (String.utf8EncodeChar_ne_nil (c := c))
      rw [List.length_append] at hn
      obtain ⟨s, rest, rfl, hrest⟩ := ih more.length (by omega) more rfl
      exact ⟨c :: s, rest, by rw [encode_cons, List.append_assoc], hrest⟩
    · exact ⟨[], b, rfl, fun c hc => hb ⟨c, hc⟩⟩

/-- Where no character begins, no longer text is read. -/
theorem length_encode_le {s t : Text} {rest : Bytes}
    (hrest : ∀ c, ¬String.utf8EncodeChar c <+: rest) (h : encode t <+: encode s ++ rest) :
    (encode t).length ≤ (encode s).length := by
  induction t generalizing s with
  | nil => exact Nat.zero_le _
  | cons c t ih =>
    obtain ⟨more, h⟩ := h
    cases s with
    | nil =>
      rw [encode_cons, List.append_assoc] at h
      exact absurd ⟨_, h⟩ (hrest c)
    | cons d s =>
      rw [encode_cons, encode_cons, List.append_assoc, List.append_assoc] at h
      obtain ⟨rfl, hmore⟩ := encodeChar_append_inj h
      rw [encode_cons, encode_cons, List.length_append, List.length_append]
      exact Nat.add_le_add_left (ih ⟨more, hmore⟩) _

theorem exists_decodeChar_error {lead : UInt8} {more : Bytes}
    (h : ∀ c, ¬String.utf8EncodeChar c <+: lead :: more) (start : Nat) :
    ∃ f, decodeChar start lead more = .error f := by
  cases hd : decodeChar start lead more with
  | error f => exact ⟨f, rfl⟩
  | ok r =>
    obtain ⟨tail, rest, e, rfl, -⟩ := encodeChar_of_decodeChar hd
    exact absurd (e ▸ List.prefix_append _ rest) (h r.1)

/-- Decoding ends well, or at the first byte that begins no character. -/
theorem decode_cases (b : Bytes) :
    (∃ s, b = encode s ∧ decode b = .ok s) ∨
      ∃ s lead more f, b = encode s ++ lead :: more ∧
        (∀ c, ¬String.utf8EncodeChar c <+: lead :: more) ∧
        decodeChar (encode s).length lead more = .error f ∧ decode b = .error f := by
  obtain ⟨s, rest, rfl, hrest⟩ := exists_encode_append b
  cases rest with
  | nil =>
    rw [List.append_nil]
    exact .inl ⟨s, rfl, decode_encode s⟩
  | cons lead more =>
    obtain ⟨f, hf⟩ := exists_decodeChar_error hrest (encode s).length
    refine .inr ⟨s, lead, more, f, rfl, hrest, hf, ?_⟩
    rw [decode_encode_append, decodeFrom_cons, hf]

theorem decode_eq_ok_iff {b : Bytes} {s : Text} : decode b = .ok s ↔ encode s = b := by
  constructor
  · intro h
    obtain ⟨t, rfl, ht⟩ | ⟨_, _, _, f, -, -, -, hf⟩ := decode_cases b
    · cases ht.symm.trans h
      rfl
    · cases hf.symm.trans h
  · rintro rfl
    exact decode_encode s

/-! ## Faults -/

/-- The bytes are those of a text. -/
def WellFormed (b : Bytes) : Prop := ∃ s, encode s = b

/-- The bytes are the first ones of some character. -/
def BeginsChar (w : Bytes) : Prop := ∃ c, w <+: String.utf8EncodeChar c

/-- What a fault says of the bytes in which it was found. -/
structure Fault.Describes (f : Fault) (b : Bytes) : Prop where
  /-- The well-formed bytes before the fault are the most there are. -/
  start : IsGreatest {n | n ≤ b.length ∧ WellFormed (b.take n)} f.start
  lead : b[f.start]? = some f.lead
  /-- A byte that begins no character is alone. -/
  stray : ¬BeginsChar [f.lead] → f.length = 1 ∧ f.reason.message = "invalid start byte".toList
  /-- The bad bytes are the most there are with which a character could begin. -/
  length : BeginsChar [f.lead] →
    IsGreatest {n | n ≤ (b.drop f.start).length ∧ BeginsChar ((b.drop f.start).take n)} f.length
  truncated : BeginsChar [f.lead] → f.start + f.length = b.length →
    f.reason.message = "unexpected end of data".toList
  broken : BeginsChar [f.lead] → f.start + f.length < b.length →
    f.reason.message = "invalid continuation byte".toList

theorem beginsChar_cons_iff {lead : UInt8} {w : Bytes} :
    BeginsChar (lead :: w) ↔ ∃ ranges, followers lead = some ranges ∧ Admits ranges w := by
  constructor
  · rintro ⟨c, more, h⟩
    obtain ⟨ranges, hranges, ha, -⟩ : IsSequence (lead :: (w ++ more)) := by
      rw [← List.cons_append, h]
      exact isSequence_encodeChar c
    exact ⟨ranges, hranges, ha.mono (List.prefix_append w more)⟩
  · rintro ⟨ranges, hranges, ha⟩
    obtain ⟨more, hmore, hl⟩ := ha.exists_append (first_of_mem_followers hranges)
    have hsequence : IsSequence (lead :: (w ++ more)) := ⟨ranges, hranges, hmore, hl⟩
    obtain ⟨c, hc⟩ := isSequence_iff.mp hsequence
    exact ⟨c, more, hc.symm⟩

theorem beginsChar_singleton_iff {lead : UInt8} :
    BeginsChar [lead] ↔ (followers lead).isSome = true := by
  rw [beginsChar_cons_iff, Option.isSome_iff_exists]
  exact exists_congr fun ranges => and_iff_left (Admits.nil ranges)

/-- The admitted bytes behind a lead byte are the most with which a character could begin. -/
theorem isGreatest_admitted {lead : UInt8} {ranges : List ByteRange} (more : Bytes)
    (h : followers lead = some ranges) :
    IsGreatest {n | n ≤ (lead :: more).length ∧ BeginsChar ((lead :: more).take n)}
      (1 + (admitted ranges more).length) := by
  have hprefix := admitted_prefix_bytes ranges more
  constructor
  · refine ⟨?_, ?_⟩
    · have := hprefix.length_le
      rw [List.length_cons]
      omega
    · rw [Nat.add_comm, List.take_succ_cons, ← List.prefix_iff_eq_take.mp hprefix]
      exact beginsChar_cons_iff.mpr ⟨ranges, h, admits_admitted ranges more⟩
  · rintro n ⟨hn, hbegins⟩
    cases n with
    | zero => exact Nat.zero_le _
    | succ n =>
      rw [List.take_succ_cons, beginsChar_cons_iff, h] at hbegins
      obtain ⟨_, hranges, ha⟩ := hbegins
      cases hranges
      have := ha.length_le_admitted (List.take_prefix n more)
      rw [List.length_take, Nat.min_eq_left (Nat.le_of_succ_le_succ hn)] at this
      omega

theorem isGreatest_wellFormed {s : Text} {rest : Bytes}
    (hrest : ∀ c, ¬String.utf8EncodeChar c <+: rest) :
    IsGreatest {n | n ≤ (encode s ++ rest).length ∧ WellFormed ((encode s ++ rest).take n)}
      (encode s).length := by
  constructor
  · exact ⟨by simp, s, by rw [List.take_left]⟩
  · rintro n ⟨hn, t, ht⟩
    have hle := length_encode_le hrest (ht ▸ List.take_prefix n _)
    rw [ht, List.length_take] at hle
    omega

theorem describes_of_decodeChar {s : Text} {lead : UInt8} {more : Bytes} {f : Fault}
    (hrest : ∀ c, ¬String.utf8EncodeChar c <+: lead :: more)
    (h : decodeChar (encode s).length lead more = .error f) :
    f.Describes (encode s ++ lead :: more) := by
  have hdrop : (encode s ++ lead :: more).drop (encode s).length = lead :: more := List.drop_left
  obtain ⟨hnone, rfl⟩ | ⟨ranges, hranges, rfl⟩ := decodeChar_eq_error h
  · have hstray : ¬BeginsChar [lead] := by simp [beginsChar_singleton_iff, hnone]
    exact ⟨isGreatest_wellFormed hrest, by simp, fun _ => ⟨rfl, rfl⟩, fun h => absurd h hstray,
      fun h => absurd h hstray, fun h => absurd h hstray⟩
  · have hbegins : BeginsChar [lead] := by simp [beginsChar_singleton_iff, hranges]
    refine ⟨isGreatest_wellFormed hrest, by simp, fun h => absurd hbegins h, fun _ => ?_,
      fun _ hend => ?_, fun _ hend => ?_⟩
    · rw [hdrop]
      exact isGreatest_admitted more hranges
    · simp only [List.length_append, List.length_cons] at hend
      rw [if_pos (by omega)]
      rfl
    · simp only [List.length_append, List.length_cons] at hend
      rw [if_neg (by omega)]
      rfl

/-- Bytes that are no text are refused with a fault that tells where and why. -/
theorem exists_of_not_wellFormed {b : Bytes} (h : ¬WellFormed b) :
    ∃ f, decode b = .error f ∧ f.Describes b := by
  obtain ⟨s, rfl, -⟩ | ⟨s, lead, more, f, rfl, hrest, hf, hd⟩ := decode_cases b
  · exact absurd ⟨s, rfl⟩ h
  · exact ⟨f, hd, describes_of_decodeChar hrest hf⟩

/-- A surrogate, an overlong form or a number above all code points is refused where it stands. -/
theorem decode_sequence_eq_error {k n : Nat} (hk : k ≤ 3) (hn : n < least (k + 1))
    (hbad : n < least k ∨ ¬n.isValidChar) (s : Text) (rest : Bytes) :
    ∃ f, decode (encode s ++ (sequence k n ++ rest)) = .error f ∧
      f.Describes (encode s ++ (sequence k n ++ rest)) ∧ f.start = (encode s).length := by
  have hrest := not_encodeChar_prefix_sequence hk hn hbad rest
  obtain ⟨lead, more, e⟩ : ∃ lead more, sequence k n ++ rest = lead :: more := by
    match k, hk with
    | 0, _ | 1, _ | 2, _ | 3, _ => exact ⟨_, _, rfl⟩
  rw [e] at hrest ⊢
  obtain ⟨f, hf⟩ := exists_decodeChar_error hrest (encode s).length
  have hdescribes := describes_of_decodeChar hrest hf
  refine ⟨f, ?_, hdescribes, hdescribes.start.unique (isGreatest_wellFormed hrest)⟩
  rw [decode_encode_append, decodeFrom_cons, hf]

end LoxLex.Utf8
