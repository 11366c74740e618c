import LoxLex.Proofs.Scan.LineBreak
import LoxLex.Proofs.Scan.Rendering

/-!
# Displayed tokens

The line that shows a token escapes nothing, and a string in it may hold line breaks. Yet what the
line says of a scanned token and where it ends can be told whatever comes after it
(`Token.Scanned.display_append_inj`): the kind has no blank in its name, what follows is a string
up to its second quote or a lexeme without blanks, and the value is that of the lexeme.
-/

namespace LoxLex

/-- A text ends before the first `c` that comes after it, if it holds none itself. -/
theorem Text.append_cons_inj {c : Char} {v w r s : Text} (hv : c ∉ v) (hw : c ∉ w)
    (h : v ++ c :: r = w ++ c :: s) : v = w ∧ r = s := by
  have hrun (t : Text) (ht : c ∉ t) : ∀ d ∈ t, decide (d ≠ c) = true := fun d hd =>
    decide_eq_true fun e => ht (e ▸ hd)
  have hend (t : Text) : EndsRun (· ≠ c) (c :: t) := .cons (decide_eq_false fun hne => hne rfl) t
  obtain ⟨hvw, hrs⟩ := EndsRun.append_inj (hrun v hv) (hend r) (hrun w hw) (hend s) h
  exact ⟨hvw, (List.cons.inj hrs).2⟩

namespace Kind

theorem ofName_name (k : Kind) : ofName k.name = .ok k := by
  cases k with
  | symbol s => cases s <;> rfl
  | keyword k => cases k <;> rfl
  | identifier | string | number | endOfInput => rfl

theorem name_inj {k l : Kind} (h : k.name = l.name) : k = l := by
  have : ofName k.name = ofName l.name := by rw [h]
  rw [ofName_name, ofName_name] at this
  exact Except.ok.inj this

theorem isLetter_of_mem_name {k : Kind} {c : Char} (h : c ∈ k.name) : isLetter c = true := by
  have hall : k.name.all isLetter = true := by
    cases k with
    | symbol s => cases s <;> rfl
    | keyword k => cases k <;> rfl
    | identifier | string | number | endOfInput => rfl
  exact List.all_eq_true.mp hall c h

/-- Names of kinds begin with a letter and hold no blanks. -/
theorem name_eq_cons (k : Kind) : ∃ c w, k.name = c :: w ∧ isLetter c = true ∧ ' ' ∉ c :: w := by
  cases k with
  | symbol s => cases s <;> exact ⟨_, _, rfl, by decide, by decide⟩
  | keyword k => cases k <;> exact ⟨_, _, rfl, by decide, by decide⟩
  | identifier | string | number | endOfInput => exact ⟨_, _, rfl, by decide, by decide⟩

end Kind

namespace Token

/-- A token as a scan gives it: a spelling of its kind or the end of the input, with the value of
what is written. -/
structure Scanned (t : Token) : Prop where
  spelled : t.kind.Spells t.lexeme ∨ t.kind = .endOfInput ∧ t.lexeme = []
  valued : t.literal = t.kind.literal t.lexeme

variable {t u : Token}

/-- Where a lexeme ends can be told from its kind and a blank behind it. -/
theorem Scanned.lexeme_append_inj (ht : t.Scanned) (hu : u.Scanned) (hk : t.kind = u.kind)
    {r s : Text} (h : t.lexeme ++ ' ' :: r = u.lexeme ++ ' ' :: s) :
    t.lexeme = u.lexeme ∧ r = s := by
  by_cases hstring : t.kind = .string
  · have hbody (x : Token) (hx : x.Scanned) (hxk : x.kind = .string) :
        ∃ body, x.lexeme = '"' :: body ++ ['"'] ∧ '"' ∉ body := by
      rcases hx.spelled with hspells | ⟨hend, -⟩
      · rwa [hxk] at hspells
      · rw [hxk] at hend
        cases hend
    obtain ⟨body, e, hquote⟩ := hbody t ht hstring
    obtain ⟨body', e', hquote'⟩ := hbody u hu (hk ▸ hstring)
    rw [e, e'] at h ⊢
    simp only [List.cons_append, List.append_assoc, List.nil_append, List.cons.injEq,
      true_and] at h
    obtain ⟨rfl, hrest⟩ := Text.append_cons_inj hquote hquote' h
    exact ⟨rfl, (List.cons.inj hrest).2⟩
  · have hblank (x : Token) (hx : x.Scanned) (hxk : x.kind ≠ .string) : ' ' ∉ x.lexeme := by
      rcases hx.spelled with hspells | ⟨-, hnil⟩
      · exact fun hc => (hspells.lead_of_mem hxk hc).1 rfl
      · rw [hnil]
        exact List.not_mem_nil
    exact Text.append_cons_inj (hblank t ht hstring) (hblank u hu (hk ▸ hstring)) h

theorem Scanned.display_append_inj (ht : t.Scanned) (hu : u.Scanned) {r s : Text}
    (h : t.display ++ '\n' :: r = u.display ++ '\n' :: s) : t.content = u.content ∧ r = s := by
  have hblank (k : Kind) : ' ' ∉ k.name := by
    obtain ⟨c, w, e, -, hblank⟩ := k.name_eq_cons
    rwa [e]
  simp only [display, List.append_assoc, List.cons_append] at h
  obtain ⟨hname, hlexemes⟩ := Text.append_cons_inj (hblank t.kind) (hblank u.kind) h
  have hkind := Kind.name_inj hname
  obtain ⟨hlexeme, hvalues⟩ := ht.lexeme_append_inj hu hkind hlexemes
  have hliteral : t.literal = u.literal := by rw [ht.valued, hu.valued, hkind, hlexeme]
  rw [hliteral] at hvalues
  have hrest := List.append_cancel_left hvalues
  refine ⟨?_, (List.cons.inj hrest).2⟩
  rw [content, content, hkind, hlexeme, hliteral]

end Token

theorem scanned_of_mem_tokens {source : Text} {t : Token} (h : t ∈ (scan source).tokens) :
    t.Scanned := by
  rw [tokens_scan_eq source] at h
  rcases List.mem_append.mp h with h | h
  · obtain ⟨hspells, hvalue⟩ := spells_of_mem_tokens h
    exact ⟨.inl hspells, hvalue⟩
  · rw [List.mem_singleton.mp h]
    exact ⟨.inr ⟨rfl, rfl⟩, rfl⟩

end LoxLex
