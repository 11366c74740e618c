import LoxLex.Proofs.Double.Display
import LoxLex.Proofs.Token.Display

/-!
# Described tokens

The description of a token stays on one line and tells all of the token but its offset
(`describe_faithful`). Its parts are read off one after the other: the name of the kind ends at the
first comma, a quoted text at its mark and a number at the parenthesis behind it.
-/

namespace LoxLex

open Text (IsShown NoControls)

namespace Literal

variable {v w : Literal} {r s : Text}

/-- The same kind of value with the same content, where numbers are compared by their patterns. -/
def Same : Literal → Literal → Prop
  | none, none => True
  | text body, text body' => body = body'
  | number x, number y => x.bits = y.bits
  | _, _ => False

theorem same_iff : v.Same w ↔ v = w := by
  cases v <;> cases w <;> simp [Same, Double.bits_inj]

def kindName : Literal → Text
  | none => "none".toList
  | text _ => "text".toList
  | number _ => "number".toList

/-- What stands between the parentheses of a description. -/
def shown : Literal → Text
  | none => []
  | text body => Text.quoted body
  | number x => x.display

theorem describe_append (v : Literal) (r : Text) :
    v.describe ++ r = "Literal.".toList ++ (v.kindName ++ '(' :: (v.shown ++ ')' :: r)) := by
  have hparts : v.describe = "Literal.".toList ++ (v.kindName ++ '(' :: (v.shown ++ [')'])) := by
    cases v <;> rfl
  rw [hparts, List.append_assoc, List.append_assoc, List.cons_append, List.append_assoc]
  rfl

theorem noControls_describe (v : Literal) : NoControls v.describe := by
  have hname : NoControls v.kindName := by cases v <;> exact .of_all rfl
  have hshown : NoControls v.shown := by
    cases v with
    | none => exact .nil
    | text body => exact Text.noControls_quoted body
    | number x => exact fun c hc => (Double.mem_display hc).1
  rw [← List.append_nil v.describe, describe_append]
  exact .append (.of_all (by decide))
    (hname.append (.cons (by decide) (hshown.append (.of_all (by decide)))))

theorem describe_append_inj (h : v.describe ++ r = w.describe ++ s) : v = w ∧ r = s := by
  have hname (v : Literal) : '(' ∉ v.kindName := fun hc => by
    have hall : v.kindName.all (fun c => decide (c ≠ '(')) = true := by cases v <;> rfl
    exact of_decide_eq_true (List.all_eq_true.mp hall '(' hc) rfl
  have hnumber (x : Double) : ')' ∉ x.display := fun hc => (Double.mem_display hc).2 rfl
  rw [describe_append, describe_append] at h
  obtain ⟨hkind, hrest⟩ := Text.append_cons_inj (hname v) (hname w) (List.append_cancel_left h)
  cases v <;> cases w <;> try cases hkind
  case none.none => exact ⟨rfl, (List.cons.inj hrest).2⟩
  case text.text body body' =>
    obtain ⟨rfl, hbehind⟩ := Text.quoted_append_inj hrest
    exact ⟨rfl, (List.cons.inj hbehind).2⟩
  case number.number x y =>
    obtain ⟨hdisplay, hbehind⟩ := Text.append_cons_inj (hnumber x) (hnumber y) hrest
    exact ⟨congrArg number (Double.display_inj hdisplay), hbehind⟩

end Literal

namespace Token

variable {a b : Token}

theorem noControls_name (k : Kind) : NoControls k.name := fun c hc => by
  have hletter := isLetter_iff_le.mp (Kind.isLetter_of_mem_name hc)
  rw [IsShown]
  obtain ⟨hlow, hhigh⟩ | ⟨hlow, hhigh⟩ | rfl := hletter
  · have : 65 ≤ c.toNat := hlow
    have : c.toNat ≤ 90 := hhigh
    omega
  · have : 97 ≤ c.toNat := hlow
    have : c.toNat ≤ 122 := hhigh
    omega
  · decide

theorem noControls_decimalInt (i : Int) : NoControls (Text.decimalInt i) := by
  have hdecimal (n : Nat) : NoControls (Text.decimal n) := fun c hc =>
    Text.isShown_of_isDigit (Text.isDigit_of_mem_decimal hc)
  cases i with
  | ofNat n => exact hdecimal n
  | negSucc n => exact .cons (by decide) (hdecimal (n + 1))

theorem describe_eq (t : Token) :
    t.describe = "Token(".toList ++ (t.kind.name ++ ',' :: ' ' :: (Text.quoted t.lexeme ++
      ',' :: ' ' :: (t.literal.describe ++
        (", line=".toList ++ (Text.decimalInt t.line ++ [')']))))) := by
  have hcomma : ", ".toList = [',', ' '] := rfl
  unfold describe
  rw [hcomma]
  simp only [List.append_assoc, List.cons_append, List.nil_append]

theorem noControls_describe (t : Token) : NoControls t.describe := by
  have hline : NoControls (", line=".toList ++ (Text.decimalInt t.line ++ [')'])) :=
    .append (.of_all (by decide)) ((noControls_decimalInt t.line).append (.of_all (by decide)))
  have hliteral := t.literal.noControls_describe.append hline
  have hlexeme := (Text.noControls_quoted t.lexeme).append
    (.cons (c := ',') (by decide) (.cons (c := ' ') (by decide) hliteral))
  have hkind := (noControls_name t.kind).append
    (.cons (c := ',') (by decide) (.cons (c := ' ') (by decide) hlexeme))
  rw [describe_eq]
  exact .append (.of_all (by decide)) hkind

theorem eq_of_describe_eq (h : a.describe = b.describe) :
    a.kind = b.kind ∧ a.lexeme = b.lexeme ∧ a.literal = b.literal ∧ a.line = b.line := by
  have hcomma (k : Kind) : ',' ∉ k.name := fun hc => by
    have := Kind.isLetter_of_mem_name hc
    cases this
  rw [describe_eq, describe_eq] at h
  obtain ⟨hkind, hafterKind⟩ :=
    Text.append_cons_inj (hcomma a.kind) (hcomma b.kind) (List.append_cancel_left h)
  obtain ⟨hlexeme, hafterLexeme⟩ := Text.quoted_append_inj (List.cons.inj hafterKind).2
  obtain ⟨hliteral, hafterLiteral⟩ := Literal.describe_append_inj
    (List.cons.inj (List.cons.inj hafterLexeme).2).2
  have hline := List.append_cancel_right (List.append_cancel_left hafterLiteral)
  exact ⟨Kind.name_inj hkind, hlexeme, hliteral, Text.decimalInt_inj hline⟩

/-- The description of a token holds no control characters, and tokens are described alike if and
only if they have the same kind, lexeme, line and value. -/
theorem describe_faithful (a b : Token) :
    (∀ c ∈ a.describe, 0x20 ≤ c.toNat ∧ c.toNat ≠ 0x7f) ∧
    (a.describe = b.describe ↔
      a.kind = b.kind ∧ a.lexeme = b.lexeme ∧ a.line = b.line ∧ a.literal.Same b.literal) := by
  refine ⟨a.noControls_describe, fun h => ?_, ?_⟩
  · obtain ⟨hkind, hlexeme, hliteral, hline⟩ := eq_of_describe_eq h
    exact ⟨hkind, hlexeme, hline, Literal.same_iff.mpr hliteral⟩
  · rintro ⟨hkind, hlexeme, hline, hliteral⟩
    rw [describe_eq, describe_eq, hkind, hlexeme, hline, Literal.same_iff.mp hliteral]

/-- A lexeme with both quotes in it, and a value with one of them. -/
example : describe ⟨.string, ['"', '\'', '\n', '"'], .text ['\'', '\n'], 3, 7⟩ =
    "Token(STRING, '\"\\'\\n\"', Literal.text(\"'\\n\"), line=3)".toList := by decide +kernel

end Token

end LoxLex
