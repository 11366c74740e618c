import Mathlib.Data.List.TakeWhile
import LoxLex.Proofs.CommandLine.Prompt

/-!
# The count option

Where the count option stands among the arguments and how often it is given does not matter
(`count_option_anywhere`). The arguments act from left to right, and one that does not decide the
request at once goes on in the same way whether counting is on or not (`interpret_cons`). Only `--`
asks where the script stood, so it must not be among the arguments.
-/

namespace LoxLex.CommandLine

def countOption : Text := "--count".toList

/-- The same request with counting on. -/
def Request.counted : Request → Request
  | .help => .help
  | .version => .version
  | .scan script _ => .scan script true

theorem Request.counted_counted (r : Request) : r.counted.counted = r.counted := by
  cases r <;> rfl

/-- `q` has read what `p` has read, and counting is on. Which argument the script was may differ. -/
structure Progress.Counted (p q : Progress) : Prop where
  script : q.script = p.script
  surplus : q.surplus = p.surplus
  count : q.count = true

variable {p q : Progress} {a : Argument} {as bs : List Argument} {arguments : List Text}

/-! ## Interpreting -/

theorem Progress.Counted.plain (h : p.Counted q) (t : Text) : (p.plain t).Counted (q.plain t) := by
  unfold Progress.plain
  cases hscript : p.script with
  | none =>
    rw [h.script, hscript]
    exact ⟨rfl, h.surplus, h.count⟩
  | some script =>
    rw [h.script, hscript]
    exact ⟨rfl, congrArg (· ++ [t]) h.surplus, h.count⟩

theorem Progress.Counted.unknown (h : p.Counted q) (t : Text) :
    (p.unknown t).Counted (q.unknown t) :=
  ⟨h.script, congrArg (· ++ [t]) h.surplus, h.count⟩

theorem Progress.Counted.finish (h : p.Counted q) :
    q.finish = p.finish.map Request.counted := by
  rw [Progress.finish, Progress.finish, h.script, h.surplus, h.count]
  split <;> rfl

/-- An argument decides the request at once, whether counting is on or not, or leaves it to the
arguments behind it. -/
theorem interpret_cons (ha : a ≠ .separator) :
    (∃ r : Except UsageError Request, r.map Request.counted = r ∧
      ∀ p rest, interpret p (a :: rest) = r) ∨
    ∃ next : Progress → Progress, (∀ p q, p.Counted q → (next p).Counted (next q)) ∧
      ∀ p rest, interpret p (a :: rest) = interpret (next p) rest := by
  cases hvalue : a.checkValue with
  | error e => exact .inl ⟨.error e, rfl, fun p rest => by unfold interpret; rw [hvalue]; rfl⟩
  | ok _ =>
    cases a with
    | plain t => exact .inr ⟨fun p => p.plain t, fun p q h => h.plain t, fun p rest => rfl⟩
    | unknown t => exact .inr ⟨fun p => p.unknown t, fun p q h => h.unknown t, fun p rest => rfl⟩
    | separator => exact absurd rfl ha
    | long flag value | short flag value =>
      cases flag with
      | help => exact .inl ⟨.ok .help, rfl, fun p rest => by rw [interpret, hvalue]; rfl⟩
      | version => exact .inl ⟨.ok .version, rfl, fun p rest => by rw [interpret, hvalue]; rfl⟩
      | count =>
        exact .inr ⟨fun p => { p with afterScript := false, count := true },
          fun p q h => ⟨h.script, h.surplus, rfl⟩, fun p rest => by rw [interpret, hvalue]; rfl⟩

theorem interpret_counted (h : p.Counted q) (has : .separator ∉ as) :
    interpret q as = (interpret p as).map Request.counted := by
  induction as generalizing p q with
  | nil => exact h.finish
  | cons a as ih =>
    obtain ⟨ha, has⟩ := List.ne_and_not_mem_of_not_mem_cons has
    obtain ⟨r, hr, hdecided⟩ | ⟨next, hcounted, hnext⟩ := interpret_cons ha.symm
    · rw [hdecided, hdecided, hr]
    · rw [hnext, hnext, ih (hcounted p q h) has]

theorem interpret_insert_count (has : .separator ∉ as ++ bs) :
    interpret p (as ++ .long .count none :: bs) = (interpret p (as ++ bs)).map Request.counted := by
  induction as generalizing p with
  | nil =>
    have h : p.Counted { p with afterScript := false, count := true } := ⟨rfl, rfl, rfl⟩
    exact interpret_counted h has
  | cons a as ih =>
    obtain ⟨ha, has⟩ := List.ne_and_not_mem_of_not_mem_cons has
    rw [List.cons_append, List.cons_append]
    obtain ⟨r, hr, hdecided⟩ | ⟨next, -, hnext⟩ := interpret_cons ha.symm
    · rw [hdecided, hdecided, hr]
    · rw [hnext, hnext, ih has]

/-! ## Parsing -/

namespace Argument

theorem ofUnnamed_ne_separator (t : Text) : ofUnnamed t ≠ .separator := by
  unfold ofUnnamed
  split <;> exact nofun

theorem ofName_ne_separator (name : Text) (value : Option Text) :
    ofName name value ≠ some .separator := by
  rw [ofName, Ne, Option.map_eq_some_iff]
  rintro ⟨flag, -, h⟩
  split at h <;> cases h

/-- Only the first `--` is a separator, and `ofList` takes it out before. -/
theorem of_ne_separator (t : Text) : of t ≠ .ok .separator := by
  intro h
  unfold of at h
  split at h
  · next c rest =>
    dsimp only at h
    split at h
    · next a _ ha => exact ofName_ne_separator _ _ (ha.trans (congrArg some (Except.ok.inj h)))
    · next a _ ha => exact ofName_ne_separator _ _ (ha.trans (congrArg some (Except.ok.inj h)))
    · split at h
      · unfold ofAbbreviation at h
        dsimp only at h
        split at h
        · exact ofUnnamed_ne_separator _ (Except.ok.inj h)
        · cases h
        · cases h
      · unfold ofLetter at h
        split at h
        · cases h
        · exact ofUnnamed_ne_separator _ (Except.ok.inj h)
  · cases h

theorem separator_not_mem_mapM (h : arguments.mapM of = .ok as) : .separator ∉ as := by
  induction arguments generalizing as with
  | nil =>
    cases h
    exact List.not_mem_nil
  | cons t arguments ih =>
    rw [List.mapM_cons] at h
    cases ht : of t with
    | error e => rw [ht] at h; cases h
    | ok a =>
      cases hrest : arguments.mapM of with
      | error e => rw [ht, hrest] at h; cases h
      | ok rest =>
        rw [ht, hrest] at h
        cases h
        have ha : a ≠ .separator := fun e => of_ne_separator t (e ▸ ht)
        exact List.not_mem_cons_of_ne_of_not_mem ha.symm (ih hrest)

theorem ofList_eq_mapM (h : "--".toList ∉ arguments) : ofList arguments = arguments.mapM of := by
  have hnamed : ∀ t ∈ arguments, decide (t ≠ "--".toList) = true := fun t ht =>
    decide_eq_true fun e => h (e ▸ ht)
  rw [ofList, List.takeWhile_eq_self_iff.mpr hnamed, List.dropWhile_eq_nil_iff.mpr hnamed]
  simp

end Argument

variable {before after : List Text}

theorem parse_insert_count (h : "--".toList ∉ before ++ after) :
    parse (before ++ countOption :: after) = (parse (before ++ after)).map Request.counted := by
  have hcount : Argument.of countOption = .ok (.long .count none) := by decide +kernel
  have h' : "--".toList ∉ before ++ countOption :: after := by
    have hne : "--".toList ≠ countOption := by decide
    exact List.not_mem_append (fun hb => h (List.mem_append_left _ hb))
      (List.not_mem_cons_of_ne_of_not_mem hne fun ha => h (List.mem_append_right _ ha))
  rw [parse, parse, Argument.ofList_eq_mapM h, Argument.ofList_eq_mapM h', List.mapM_append,
    List.mapM_append, List.mapM_cons, hcount]
  cases hbefore : before.mapM Argument.of with
  | error e => rfl
  | ok as =>
    cases hafter : after.mapM Argument.of with
    | error e => rfl
    | ok bs =>
      refine interpret_insert_count (List.not_mem_append ?_ ?_)
      · exact Argument.separator_not_mem_mapM hbefore
      · exact Argument.separator_not_mem_mapM hafter

/-- Counting that is on already stays on. -/
theorem parse_insert_count_of_mem (h : "--".toList ∉ before ++ after)
    (hmem : countOption ∈ before ++ after) :
    parse (before ++ countOption :: after) = parse (before ++ after) := by
  obtain ⟨front, back, hsplit⟩ := List.append_of_mem hmem
  have hseparator : "--".toList ∉ front ++ back := fun hs => by
    rw [hsplit] at h
    exact h (List.mem_append.mpr ((List.mem_append.mp hs).imp_right (List.mem_cons_of_mem _)))
  have hcounted : parse (before ++ after) = (parse (front ++ back)).map Request.counted := by
    rw [hsplit, parse_insert_count hseparator]
  rw [parse_insert_count h, hcounted]
  cases parse (front ++ back) with
  | error e => rfl
  | ok r => rw [Except.map, Except.map, r.counted_counted]

/-! ## Calls -/

variable {files : FileTree} {input : Text} {inputEnd : InputEnd}

/-- Nothing that is asked for ends like a usage error. -/
theorem not_exitsWith_usage_perform (r : Request) :
    ¬(perform files input inputEnd r).ExitsWith 64 := by
  have hother (o : Outcome) (status : ExitStatus) (ho : o.ending = .exit status)
      (hstatus : status ≠ .usage) : ¬o.ExitsWith 64 := by
    rintro ⟨s, hs, hcode⟩
    cases ho.symm.trans hs
    cases status <;> first | exact hstatus rfl | cases hcode
  cases r with
  | help | version => exact hother _ .success rfl nofun
  | scan script count =>
    cases script with
    | none => exact hother _ .success rfl nofun
    | some path =>
      rw [perform]
      cases load files path with
      | ok s =>
        rw [scanScript, exitsWith_scanSource]
        split <;> decide
      | error e =>
        cases e with
        | nulInPath =>
          rintro ⟨status, hstatus, -⟩
          cases hstatus
        | unreadable e => exact hother _ .noInput rfl nofun
        | undecodable f => exact hother _ .dataError rfl nofun

theorem exitsWith_usage_iff :
    (run arguments files input inputEnd).ExitsWith 64 ↔ ∃ e, parse arguments = .error e := by
  constructor
  · intro h
    cases hparse : parse arguments with
    | error e => exact ⟨e, rfl⟩
    | ok r =>
      rw [run_of_parse_ok hparse] at h
      exact absurd h (not_exitsWith_usage_perform r)
  · rintro ⟨e, h⟩
    rw [run_of_parse_error h]
    exact ⟨.usage, rfl, rfl⟩

/-- The outcome `o` of a call that is refused for its arguments. They alone decide it: whatever the
files and the input hold, no part of them is shown. -/
structure Refused (arguments : List Text) (o : Outcome) : Prop where
  stdout : o.stdout = []
  refusal : ∃ e, parse arguments = .error e ∧ o = usageFailure e
  unread : ∀ files input inputEnd, run arguments files input inputEnd = o

theorem refused_of_exitsWith (h : (run arguments files input inputEnd).ExitsWith 64) :
    Refused arguments (run arguments files input inputEnd) := by
  obtain ⟨e, he⟩ := exitsWith_usage_iff.mp h
  rw [run_of_parse_error he]
  exact ⟨rfl, ⟨e, he, rfl⟩, run_of_parse_error he⟩

/-- The outcome `o` of a call with `arguments` beside the outcome `o'` of the call with `extended`,
which also turns counting on. -/
structure CountsToo (arguments extended : List Text) (files : FileTree) (input : Text)
    (inputEnd : InputEnd) (o o' : Outcome) : Prop where
  help : parse arguments = .ok .help → o = { stdout := helpText } ∧ o' = o
  version : parse arguments = .ok .version → o = { stdout := versionText } ∧ o' = o
  refused : o.ExitsWith 64 → o' = o
  script : ∀ path count, parse arguments = .ok (.scan (some path) count) →
    parse extended = .ok (.scan (some path) true) ∧
      o = scanScript count path (load files path) ∧ o' = scanScript true path (load files path)
  prompt : ∀ count, parse arguments = .ok (.scan none count) →
    parse extended = .ok (.scan none true) ∧
      o = prompt count input inputEnd ∧ o' = prompt true input inputEnd
  again : countOption ∈ arguments → o' = o

/-- One more count option, wherever it stands before any `--`, leaves a call as it is but for
turning counting on. Whatever the arguments are, a call that ends with the status of a usage error
has printed nothing and read nothing. -/
theorem count_option_anywhere (h : "--".toList ∉ before ++ after) (files : FileTree)
    (input : Text) (inputEnd : InputEnd) :
    CountsToo (before ++ after) (before ++ countOption :: after) files input inputEnd
      (run (before ++ after) files input inputEnd)
      (run (before ++ countOption :: after) files input inputEnd) ∧
    ∀ arguments, (run arguments files input inputEnd).ExitsWith 64 →
      Refused arguments (run arguments files input inputEnd) := by
  have hok {r : Request} (hr : parse (before ++ after) = .ok r) :
      parse (before ++ countOption :: after) = .ok r.counted := by
    rw [parse_insert_count h, hr]
    rfl
  refine ⟨⟨fun hhelp => ?_, fun hversion => ?_, fun husage => ?_, fun path count hscript => ?_,
    fun count hprompt => ?_, fun hmem => ?_⟩, fun _ => refused_of_exitsWith⟩
  · rw [run_of_parse_ok hhelp, run_of_parse_ok (hok hhelp)]
    exact ⟨rfl, rfl⟩
  · rw [run_of_parse_ok hversion, run_of_parse_ok (hok hversion)]
    exact ⟨rfl, rfl⟩
  · obtain ⟨e, he⟩ := exitsWith_usage_iff.mp husage
    have he' : parse (before ++ countOption :: after) = .error e := by
      rw [parse_insert_count h, he]
      rfl
    rw [run_of_parse_error he, run_of_parse_error he']
  · rw [run_of_parse_ok hscript, run_of_parse_ok (hok hscript)]
    exact ⟨hok hscript, rfl, rfl⟩
  · rw [run_of_parse_ok hprompt, run_of_parse_ok (hok hprompt)]
    exact ⟨hok hprompt, rfl, rfl⟩
  · rw [run, run, parse_insert_count_of_mem h hmem]

/-- The option comes between the script and arguments that nobody asked for, and counting is on
already. -/
theorem count_option_anywhere_before_surplus :
    let before : List Text := ["a".toList]
    let after : List Text := ["-x".toList, "--co".toList, "-1".toList]
    let o := run (before ++ countOption :: after) {} [] .closed
    "--".toList ∉ before ++ after ∧ o = usageFailure (.unrecognized ["-x".toList, "-1".toList]) ∧
      o.stdout = [] := by
  intro before after o
  have hnone : "--".toList ∉ before ++ after := by decide
  have hparse : parse (before ++ after) = .error (.unrecognized ["-x".toList, "-1".toList]) := by
    decide +kernel
  have husage : (run (before ++ after) {} [] .closed).ExitsWith 64 :=
    exitsWith_usage_iff.mpr ⟨_, hparse⟩
  obtain ⟨hcount, hrefused⟩ := count_option_anywhere hnone {} [] .closed
  have ho : o = run (before ++ after) {} [] .closed := hcount.refused husage
  refine ⟨hnone, ?_, ?_⟩
  · rw [ho, run_of_parse_error hparse]
  · rw [ho]
    exact (hrefused _ husage).stdout

end LoxLex.CommandLine
