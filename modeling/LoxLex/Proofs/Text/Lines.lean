import LoxLex.Text.Lines

/-!
# What lines are

`InLines t ls`: the text `t` is made of the lines `ls`, each with the line end that closes it.
Every text is in lines in one way, and `lines` finds it (`lines_eq_iff`).
-/

namespace LoxLex.Text

/-- Neither of the characters that end a line. -/
def IsLine (l : Text) : Prop := ∀ c ∈ l, c ≠ '\n' ∧ c ≠ '\r'

/-- A line feed, a carriage return and the pair of both end a line. What comes after the last line
end is a line only if there is something. -/
inductive InLines : Text → List Text → Prop where
  | done : InLines [] []
  | last {l : Text} : IsLine l → l ≠ [] → InLines l [l]
  | feed {l rest : Text} {ls : List Text} :
    IsLine l → InLines rest ls → InLines (l ++ '\n' :: rest) (l :: ls)
  | pair {l rest : Text} {ls : List Text} :
    IsLine l → InLines rest ls → InLines (l ++ '\r' :: '\n' :: rest) (l :: ls)
  | carriage {l rest : Text} {ls : List Text} :
    IsLine l → rest.head? ≠ some '\n' → InLines rest ls → InLines (l ++ '\r' :: rest) (l :: ls)

theorem IsLine.concat {l : Text} {c : Char} (h : IsLine l) (hc : ¬(c = '\n' ∨ c = '\r')) :
    IsLine (l ++ [c]) := by
  intro d hd
  rcases List.mem_append.mp hd with hd | hd
  · exact h d hd
  · rw [List.mem_singleton.mp hd]
    exact not_or.mp hc

theorem inLines_linesAfter (before t : Text) (h : IsLine before.reverse) :
    InLines (before.reverse ++ t) (linesAfter before t) := by
  fun_induction linesAfter before t with
  | case1 => exact .done
  | case2 before hne =>
    rw [List.append_nil]
    exact .last h (by simpa using hne)
  | case3 before rest ih => exact .pair h (ih nofun)
  | case4 before c rest hpair hc ih =>
    obtain rfl | rfl := hc
    · exact .feed h (ih nofun)
    · refine .carriage h (fun hhead => ?_) (ih nofun)
      obtain ⟨after, rfl⟩ := List.head?_eq_some_iff.mp hhead
      exact hpair after rfl rfl
  | case5 before c rest hpair hc ih =>
    have := ih (by rw [List.reverse_cons]; exact h.concat hc)
    rwa [List.reverse_cons, List.append_assoc] at this

theorem linesAfter_append (before : Text) {l : Text} (h : IsLine l) (t : Text) :
    linesAfter before (l ++ t) = linesAfter (l.reverse ++ before) t := by
  induction l generalizing before with
  | nil => rfl
  | cons c l ih =>
    obtain ⟨hfeed, hreturn⟩ := h c List.mem_cons_self
    have hl : IsLine l := fun d hd => h d (List.mem_cons_of_mem c hd)
    rw [List.cons_append, linesAfter, if_neg (not_or.mpr ⟨hfeed, hreturn⟩), ih _ hl,
      List.reverse_cons, List.append_assoc]
    · rfl
    · intro _ hc
      exact absurd hc hreturn

theorem lines_append {l : Text} (h : IsLine l) (t : Text) :
    lines (l ++ t) = linesAfter l.reverse t := by
  rw [lines, linesAfter_append [] h, List.append_nil]

theorem lines_of_inLines {t : Text} {ls : List Text} (h : InLines t ls) : lines t = ls := by
  induction h with
  | done => rfl
  | @last l hl hne =>
    have := lines_append hl []
    rw [List.append_nil] at this
    rw [this, linesAfter, if_neg (by simpa using hne), List.reverse_reverse]
  | feed hl _ ih =>
    rw [lines_append hl, linesAfter, if_pos (.inl rfl), List.reverse_reverse, ← lines, ih]
    exact nofun
  | pair hl _ ih => rw [lines_append hl, linesAfter, List.reverse_reverse, ← lines, ih]
  | carriage hl hhead _ ih =>
    rw [lines_append hl, linesAfter, if_pos (.inr rfl), List.reverse_reverse, ← lines, ih]
    rintro after - rfl
    exact hhead rfl

theorem lines_eq_iff {t : Text} {ls : List Text} : lines t = ls ↔ InLines t ls :=
  ⟨fun h => h ▸ inLines_linesAfter [] t nofun, lines_of_inLines⟩

theorem InLines.isLine {t : Text} {ls : List Text} (h : InLines t ls) : ∀ l ∈ ls, IsLine l := by
  induction h with
  | done => exact nofun
  | last hl _ => exact List.forall_mem_singleton.mpr hl
  | feed hl _ ih | pair hl _ ih | carriage hl _ _ ih => exact List.forall_mem_cons.mpr ⟨hl, ih⟩

theorem IsLine.newlines {l : Text} (h : IsLine l) : newlines l = 0 :=
  List.count_eq_zero_of_not_mem fun hc => (h _ hc).1 rfl

end LoxLex.Text
