import LoxLex.Text.Quoted
import Mathlib.Algebra.Ring.Parity

/-!
# Reading quoted text

`quoted` writes a text without control characters (`noControls_quoted`), and both the text and where
its quoted form ends can be told whatever comes after it (`quoted_append_inj`). The one character
that an escape stands for is read back by `unescape`, which need not know the mark, and no escape
begins with the mark itself (`escape_cases`).
-/

namespace LoxLex.Text

variable {s t r r' : Text} {c mark : Char}

/-! ## Control characters -/

/-- Neither a character below the space nor the delete character. -/
def IsShown (c : Char) : Prop := 0x20 ≤ c.toNat ∧ c.toNat ≠ 0x7f

instance : DecidablePred IsShown := fun _ => inferInstanceAs (Decidable (_ ∧ _))

def NoControls (t : Text) : Prop := ∀ c ∈ t, IsShown c

theorem NoControls.append (hs : NoControls s) (ht : NoControls t) : NoControls (s ++ t) :=
  List.forall_mem_append.mpr ⟨hs, ht⟩

theorem NoControls.cons (hc : IsShown c) (ht : NoControls t) : NoControls (c :: t) :=
  List.forall_mem_cons.mpr ⟨hc, ht⟩

theorem NoControls.nil : NoControls [] := List.forall_mem_nil _

/-- Decided along the text: `∀ c ∈ _` may be decided over all characters instead. -/
theorem NoControls.of_all (h : t.all (fun c => decide (IsShown c)) = true) : NoControls t :=
  fun c hc => of_decide_eq_true (List.all_eq_true.mp h c hc)

theorem isShown_of_isDigit (h : c.isDigit = true) : IsShown c := by
  have : 48 ≤ c.toNat ∧ c.toNat ≤ 57 := Char.isDigit_iff_toNat.mp h
  rw [IsShown]
  omega

theorem isShown_of_isPrintable (h : isPrintable c = true) : IsShown c := by
  refine ⟨?_, fun hdelete => ?_⟩
  · rw [isPrintable, Bool.and_eq_true] at h
    exact of_decide_eq_true h.1
  · have hc : c = '\x7f' := Char.toNat_inj.mp hdelete
    rw [hc] at h
    exact absurd h (by decide)

theorem noControls_hexDigits (width n : Nat) : NoControls (hexDigits width n) := by
  have key : ∀ d < 16, IsShown (Nat.digitChar d) := by decide
  induction width generalizing n with
  | zero => exact .nil
  | succ width ih => exact (ih (n / 16)).append (.cons (key _ (Nat.mod_lt n (by decide))) .nil)

/-! ## Escapes -/

def hexDigitValue (c : Char) : Nat :=
  if c.isDigit then c.toNat - '0'.toNat else c.toNat - 'a'.toNat + 10

def readHex (t : Text) : Nat := t.foldl (fun n c => n * 16 + hexDigitValue c) 0

/-- The character that the first escape stands for, and the text behind the escape. -/
def unescape : Text → Option (Char × Text)
  | '\\' :: 'n' :: rest => some ('\n', rest)
  | '\\' :: 'r' :: rest => some ('\r', rest)
  | '\\' :: 't' :: rest => some ('\t', rest)
  | '\\' :: 'x' :: rest => some (Char.ofNat (readHex (rest.take 2)), rest.drop 2)
  | '\\' :: 'u' :: rest => some (Char.ofNat (readHex (rest.take 4)), rest.drop 4)
  | '\\' :: 'U' :: rest => some (Char.ofNat (readHex (rest.take 8)), rest.drop 8)
  | '\\' :: c :: rest => some (c, rest)
  | c :: rest => some (c, rest)
  | [] => none

theorem unescape_of_ne (h : c ≠ '\\') (rest : Text) : unescape (c :: rest) = some (c, rest) := by
  unfold unescape
  split <;> simp_all

theorem readHex_hexDigits (width n : Nat) : readHex (hexDigits width n) = n % 16 ^ width := by
  have key : ∀ d < 16, hexDigitValue (Nat.digitChar d) = d := by decide
  induction width generalizing n with
  | zero => rw [Nat.pow_zero, Nat.mod_one]; rfl
  | succ width ih =>
    have hlast : hexDigitValue (Nat.digitChar (n % 16)) = n % 16 := key _ (Nat.mod_lt n (by decide))
    rw [hexDigits, readHex, List.foldl_append, ← readHex, ih, List.foldl_cons, List.foldl_nil,
      hlast, Nat.pow_succ, Nat.mul_comm (16 ^ width), Nat.mod_mul]
    omega

theorem readHex_hexDigits_append (width : Nat) (h : c.toNat < 16 ^ width) (rest : Text) :
    (Char.ofNat (readHex ((hexDigits width c.toNat ++ rest).take width)),
      (hexDigits width c.toNat ++ rest).drop width) = (c, rest) := by
  have hlength := length_hexDigits width c.toNat
  rw [List.take_left' hlength, List.drop_left' hlength, readHex_hexDigits, Nat.mod_eq_of_lt h,
    Char.ofNat_toNat]

/-- `w` begins with a backslash and is read back as `c` whatever comes after it. -/
structure Escapes (w : Text) (c : Char) : Prop where
  head : w.head? = some '\\'
  noControls : NoControls w
  unescape : ∀ rest, unescape (w ++ rest) = some (c, rest)

theorem escapes_codeEscape (c : Char) : Escapes (codeEscape c) c := by
  have hdigits (width : Nat) := noControls_hexDigits width c.toNat
  unfold codeEscape
  dsimp only
  split
  · next h =>
    exact ⟨rfl, .cons (by decide) (.cons (by decide) (hdigits 2)), fun rest =>
      congrArg some (readHex_hexDigits_append 2 h rest)⟩
  · split
    · next h =>
      exact ⟨rfl, .cons (by decide) (.cons (by decide) (hdigits 4)), fun rest =>
        congrArg some (readHex_hexDigits_append 4 h rest)⟩
    · have h : c.toNat < 16 ^ 8 := c.val.toNat_lt
      exact ⟨rfl, .cons (by decide) (.cons (by decide) (hdigits 8)), fun rest =>
        congrArg some (readHex_hexDigits_append 8 h rest)⟩

/-- A character is written as it is, which neither the mark nor the backslash ever is, or as an
escape. -/
theorem escape_cases (hm : mark = '\'' ∨ mark = '"') (c : Char) :
    (escape mark c = [c] ∧ c ≠ mark ∧ c ≠ '\\' ∧ isPrintable c = true) ∨
      Escapes (escape mark c) c := by
  unfold escape
  split
  · next h =>
    rcases h with rfl | rfl
    · rcases hm with rfl | rfl <;> exact .inr ⟨rfl, .of_all (by decide), fun _ => rfl⟩
    · exact .inr ⟨rfl, .of_all (by decide), fun _ => rfl⟩
  · next h =>
    split
    · next hc => exact .inr ⟨rfl, .of_all (by decide), fun _ => hc ▸ rfl⟩
    · split
      · next hc => exact .inr ⟨rfl, .of_all (by decide), fun _ => hc ▸ rfl⟩
      · split
        · next hc => exact .inr ⟨rfl, .of_all (by decide), fun _ => hc ▸ rfl⟩
        · split
          · next hp => exact .inl ⟨rfl, fun e => h (.inl e), fun e => h (.inr e), hp⟩
          · exact .inr (escapes_codeEscape c)

theorem noControls_escape (hm : mark = '\'' ∨ mark = '"') (c : Char) :
    NoControls (escape mark c) := by
  obtain ⟨e, -, -, hp⟩ | h := escape_cases hm c
  · rw [e]
    exact .cons (isShown_of_isPrintable hp) .nil
  · exact h.noControls

theorem unescape_escape_append (hm : mark = '\'' ∨ mark = '"') (c : Char) (rest : Text) :
    unescape (escape mark c ++ rest) = some (c, rest) := by
  obtain ⟨e, -, hc, -⟩ | h := escape_cases hm c
  · rw [e]
    exact unescape_of_ne hc rest
  · exact h.unescape rest

theorem head?_escape_append_ne (hm : mark = '\'' ∨ mark = '"') (c : Char) (rest : Text) :
    (escape mark c ++ rest).head? ≠ some mark := by
  obtain ⟨e, hc, -, -⟩ | h := escape_cases hm c
  · rw [e]
    exact fun heq => hc (Option.some.inj heq)
  · rw [List.head?_append, h.head]
    rcases hm with rfl | rfl <;> exact nofun

/-! ## Quoted texts -/

theorem quoteMark_cases (t : Text) : quoteMark t = '\'' ∨ quoteMark t = '"' := by
  unfold quoteMark
  split
  · exact .inr rfl
  · exact .inl rfl

theorem noControls_quoted (t : Text) : NoControls (quoted t) := by
  have hm := quoteMark_cases t
  have hmark : IsShown (quoteMark t) := by
    rcases hm with h | h <;> rw [h] <;> decide
  refine .append (.cons hmark fun c hc => ?_) (.cons hmark .nil)
  obtain ⟨d, -, hc⟩ := List.mem_flatMap.mp hc
  exact noControls_escape hm d c hc

/-- Escaped texts end at the mark behind them. -/
theorem flatMap_escape_append_inj (hm : mark = '\'' ∨ mark = '"')
    (h : s.flatMap (escape mark) ++ mark :: r = t.flatMap (escape mark) ++ mark :: r') :
    s = t ∧ r = r' := by
  induction s generalizing t with
  | nil =>
    cases t with
    | nil => exact ⟨rfl, (List.cons.inj h).2⟩
    | cons d t =>
      rw [List.flatMap_cons, List.append_assoc] at h
      exact absurd (congrArg List.head? h).symm (head?_escape_append_ne hm d _)
  | cons c s ih =>
    cases t with
    | nil =>
      rw [List.flatMap_cons, List.append_assoc] at h
      exact absurd (congrArg List.head? h) (head?_escape_append_ne hm c _)
    | cons d t =>
      have hread := congrArg unescape h
      simp only [List.flatMap_cons, List.append_assoc, unescape_escape_append hm,
        Option.some.injEq, Prod.mk.injEq] at hread
      obtain ⟨rfl, hrest⟩ := hread
      obtain ⟨rfl, hr⟩ := ih hrest
      exact ⟨rfl, hr⟩

theorem quoted_append_inj (h : quoted s ++ r = quoted t ++ r') : s = t ∧ r = r' := by
  simp only [quoted, List.cons_append, List.append_assoc, List.nil_append, List.cons.injEq] at h
  obtain ⟨hmark, hrest⟩ := h
  rw [← hmark] at hrest
  exact flatMap_escape_append_inj (quoteMark_cases s) hrest

end LoxLex.Text
