import LoxLex.Proofs.Grammar.Lexeme
import LoxLex.Proofs.Scan.Rewriting

/-!
# Unrecognised characters

A character is foreign if no token but a string can hold it. Which of them a source holds makes no
difference to its scan: a `Relabelling` puts foreign characters in the place of foreign characters,
and `scan_relabelled` says that a scan goes along with it. The end mark is one of them.
-/

namespace LoxLex

open Grammar (IsDigit IsLetter)

def IsForeign (c : Char) : Prop := c ∉ Lead.punctuation ∧ ¬IsDigit c ∧ ¬IsLetter c

/-- A change of foreign characters to others, not necessarily one to one. -/
structure Relabelling where
  apply : Char → Char
  keeps : ∀ c, ¬IsForeign c → apply c = c
  foreign : ∀ c, IsForeign c → IsForeign (apply c)

def Relabelling.text (f : Relabelling) (t : Text) : Text := t.map f.apply

/-- The diagnostic with `f` applied to the character that it quotes, if it quotes one. -/
def Diagnostic.relabelled (f : Relabelling) (d : Diagnostic) : Diagnostic :=
  if d.code = some "L001".toList then
    { d with message := d.message.modify "Unexpected character: '".length f.apply }
  else d

theorem isForeign_iff {c : Char} : IsForeign c ↔ Lead.of c = .foreign := by
  rw [Lead.of_eq_foreign_iff, IsForeign, ← Grammar.isDigit_iff, ← Grammar.isLetter_iff,
    Bool.not_eq_true, Bool.not_eq_true]

/-- No piece goes on with a foreign character, but for strings and comments. -/
theorem Piece.eq_false_of_mem_runs {q : Char → Bool} (hq : q ∈ runs) {c : Char}
    (hc : Lead.of c = .foreign) : q c = false := by
  obtain ⟨hpunctuation, hdigit, hletter⟩ := Lead.of_eq_foreign_iff.mp hc
  have hne (d : Char) (hd : d ∈ Lead.punctuation) : c ≠ d := fun e => hpunctuation (e ▸ hd)
  simp only [runs, List.mem_cons, List.not_mem_nil, or_false] at hq
  rcases hq with rfl | rfl | rfl | rfl
  · exact decide_eq_false (hne '/' (by decide))
  · exact decide_eq_false (hne '=' (by decide))
  · exact hdigit
  · rw [isWordCharacter, hletter, hdigit, Bool.or_false]

namespace Relabelling

variable {f : Relabelling}

theorem apply_eq_self {c : Char} (h : Lead.of c ≠ .foreign) : f.apply c = c :=
  f.keeps c fun hc => h (isForeign_iff.mp hc)

theorem lead_apply {c : Char} (h : Lead.of c = .foreign) : Lead.of (f.apply c) = .foreign :=
  isForeign_iff.mp (f.foreign c (isForeign_iff.mpr h))

/-- A class that does not tell foreign characters apart does not tell a character from its label. -/
theorem class_apply {q : Char → Bool} {b : Bool} (hq : ∀ c, Lead.of c = .foreign → q c = b)
    (c : Char) : q (f.apply c) = q c := by
  by_cases hc : Lead.of c = .foreign
  · rw [hq c hc, hq _ (lead_apply hc)]
  · rw [apply_eq_self hc]

theorem decide_apply_eq {d : Char} (hd : Lead.of d ≠ .foreign) (c : Char) :
    decide (f.apply c = d) = decide (c = d) :=
  class_apply (q := fun c => decide (c = d)) (b := false)
    (fun c hc => decide_eq_false (by rintro rfl; exact hd hc)) c

theorem text_cons (f : Relabelling) (c : Char) (t : Text) :
    f.text (c :: t) = f.apply c :: f.text t := rfl

theorem text_append (f : Relabelling) (s t : Text) : f.text (s ++ t) = f.text s ++ f.text t :=
  List.map_append

theorem length_text (f : Relabelling) (t : Text) : (f.text t).length = t.length := List.length_map _

theorem text_eq_self {w : Text} (h : ∀ c ∈ w, Lead.of c ≠ .foreign) : f.text w = w := by
  rw [text, List.map_congr_left fun c hc => apply_eq_self (h c hc)]
  exact List.map_id' w

theorem not_mem_text {d : Char} (hd : Lead.of d ≠ .foreign) {t : Text} (h : d ∉ t) :
    d ∉ f.text t := by
  intro hmem
  obtain ⟨c, hc, e⟩ := List.mem_map.mp hmem
  have hcd : c = d := by simpa [e] using (decide_apply_eq (f := f) hd c).symm
  exact h (hcd ▸ hc)

theorem newlines_text (f : Relabelling) (t : Text) :
    Text.newlines (f.text t) = Text.newlines t := by
  rw [Text.newlines, Text.newlines, List.count_eq_countP, List.count_eq_countP, text,
    List.countP_map]
  refine List.countP_congr fun c _ => ?_
  have := decide_apply_eq (f := f) (d := '\n') (by decide) c
  simpa using this

end Relabelling

/-! ## Pieces -/

variable {f : Relabelling} {rest : Text}

theorem EndsRun.relabelled {q : Char → Bool} {b : Bool} (h : EndsRun q rest)
    (hq : ∀ c, Lead.of c = .foreign → q c = b) : EndsRun q (f.text rest) := by
  intro c hc
  rw [Relabelling.text, List.head?_map] at hc
  obtain ⟨d, hd, rfl⟩ := Option.map_eq_some_iff.mp hc
  rw [Relabelling.class_apply hq]
  exact h d hd

namespace Piece

def relabelled (f : Relabelling) : Piece → Piece
  | comment body => comment (f.text body)
  | quoted body => quoted (f.text body)
  | unclosed body => unclosed (f.text body)
  | foreign c => foreign (f.apply c)
  | p => p

theorem WellFormed.text_relabelled {p : Piece} (h : p.WellFormed) :
    (p.relabelled f).text = f.text p.text := by
  have hslash : f.apply '/' = '/' := Relabelling.apply_eq_self (by decide)
  have hquote : f.apply '"' = '"' := Relabelling.apply_eq_self (by decide)
  cases p with
  | comment body => simp only [relabelled, text, Relabelling.text_cons, hslash]
  | quoted body =>
    simp only [relabelled, text, Relabelling.text_append, Relabelling.text_cons, hquote]
    rfl
  | unclosed body => simp only [relabelled, text, Relabelling.text_cons, hquote]
  | foreign c => rfl
  | blank c =>
    refine (Relabelling.text_eq_self fun d hd => ?_).symm
    rw [List.mem_singleton.mp hd, Lead.of_blank h]
    decide
  | symbol _ | numeral _ =>
    exact (Relabelling.text_eq_self fun _ hc => (h.lead_of_mem rfl (by simp) hc).2).symm
  | word w =>
    exact (Relabelling.text_eq_self fun _ hc =>
      (h.lead_of_mem rfl (Kind.ofWord_ne_string w) hc).2).symm

theorem WellFormed.relabelled {p : Piece} (h : p.WellFormed) : (p.relabelled f).WellFormed := by
  cases p with
  | comment body => exact Relabelling.not_mem_text (by decide) h
  | quoted body | unclosed body => exact Relabelling.not_mem_text (by decide) h
  | foreign c => exact Relabelling.lead_apply h
  | symbol _ | blank _ | numeral _ | word _ => exact h

theorem startsFraction_relabelled (f : Relabelling) (t : Text) :
    startsFraction (f.text t) = startsFraction t := by
  cases t with
  | nil => rfl
  | cons c t =>
    have hdigit (d : Char) : (f.apply d).isDigit = d.isDigit :=
      Relabelling.class_apply (fun c hc => (Lead.of_eq_foreign_iff.mp hc).2.1) d
    rw [Relabelling.text_cons, startsFraction_cons, startsFraction_cons,
      Relabelling.decide_apply_eq (by decide), Relabelling.text, List.head?_map, Option.any_map]
    simp only [hdigit]

theorem StopsAt.relabelled {p : Piece} (h : p.StopsAt rest) :
    (p.relabelled f).StopsAt (f.text rest) := by
  have hruns : ∀ q ∈ runs, EndsRun q rest → EndsRun q (f.text rest) := fun q hq hr =>
    hr.relabelled fun c hc => eq_false_of_mem_runs hq hc
  cases p with
  | comment body =>
    have hr : EndsRun (· ≠ '\n') rest := h
    refine hr.relabelled (b := true) fun c hc => decide_eq_true ?_
    rintro rfl
    cases hc
  | unclosed body =>
    rw [show rest = [] from h]
    rfl
  | symbol _ | numeral _ | word _ =>
    refine h.of_runs hruns ?_ nofun nofun
    rw [startsFraction_relabelled]
    exact id
  | blank _ | quoted _ | foreign _ => trivial

end Piece

variable {ps : List Piece}

theorem flatMap_text_relabelled (h : ∀ p ∈ ps, p.WellFormed) :
    (ps.map (Piece.relabelled f)).flatMap Piece.text = f.text (ps.flatMap Piece.text) := by
  rw [List.flatMap_map, Relabelling.text, List.map_flatMap]
  exact List.flatMap_congr fun p hp => (h p hp).text_relabelled

theorem Stand.relabelled (h : Stand ps []) : Stand (ps.map (Piece.relabelled f)) [] := by
  induction ps with
  | nil => trivial
  | cons p ps ih =>
    obtain ⟨hp, hs, hps⟩ := h
    refine ⟨hp.relabelled, ?_, ih hps⟩
    rw [List.append_nil] at hs ⊢
    rw [flatMap_text_relabelled hps.wellFormed]
    exact hs.relabelled

theorem pieces_relabelled (f : Relabelling) (source : Text) :
    pieces (f.text source) = (pieces source).map (Piece.relabelled f) := by
  have hstand := stand_pieces source
  refine pieces_eq_iff.mpr ⟨?_, hstand.relabelled⟩
  rw [flatMap_text_relabelled hstand.wellFormed, pieces_text]

/-! ## Outcomes -/

namespace Placed

def relabelled (f : Relabelling) (x : Placed) : Placed := { x with piece := x.piece.relabelled f }

theorem token?_relabelled {x : Placed} (h : x.piece.WellFormed) :
    (x.relabelled f).token? = x.token?.map (Token.mapText f.text) := by
  have htext := h.text_relabelled (f := f)
  obtain ⟨offset, line, p⟩ := x
  cases p with
  | symbol _ | quoted _ | numeral _ | word _ =>
    simp only [token?, relabelled, htext]
    rfl
  | comment _ | blank _ | unclosed _ | foreign _ => rfl

theorem diagnostic?_relabelled {x : Placed} (h : x.piece.WellFormed) :
    (x.relabelled f).diagnostic? = x.diagnostic?.map (Diagnostic.relabelled f) := by
  have hline : (x.relabelled f).endLine = x.endLine := by
    rw [endLine, endLine, relabelled, h.text_relabelled, Relabelling.newlines_text]
  rw [diagnostic?, diagnostic?, hline]
  obtain ⟨offset, line, p⟩ := x
  cases p <;> rfl

end Placed

/-- Relabelling the foreign characters of a source relabels them in its strings and in the messages
about them, and changes nothing else. -/
theorem scan_relabelled (f : Relabelling) (source : Text) :
    scan (source.map f.apply) = {
      tokens := (scan source).tokens.map (Token.mapText (List.map f.apply))
      diagnostics := (scan source).diagnostics.map (Diagnostic.relabelled f)
      line := (scan source).line } := by
  have hwf := (stand_pieces source).wellFormed
  have hplace : placeAfter [] (pieces (f.text source)) =
      (placeAfter [] (pieces source)).map (Placed.relabelled f) := by
    rw [pieces_relabelled]
    refine place_map (fun p hp => ?_) (fun p hp => ?_)
    · rw [(hwf p hp).text_relabelled, Relabelling.length_text]
    · rw [(hwf p hp).text_relabelled, Relabelling.newlines_text]
  have htokens : ∀ x ∈ placeAfter [] (pieces source),
      (x.relabelled f).token? = x.token?.map (Token.mapText f.text) :=
    fun x hx => Placed.token?_relabelled (wellFormed_of_mem_placeAfter hx)
  have hdiagnostics : ∀ x ∈ placeAfter [] (pieces source),
      (x.relabelled f).diagnostic? = x.diagnostic?.map (Diagnostic.relabelled f) :=
    fun x hx => Placed.diagnostic?_relabelled (wellFormed_of_mem_placeAfter hx)
  show scan (f.text source) = _
  rw [scan_eq, scan_eq, hplace, f.newlines_text, f.length_text, List.filterMap_map,
    List.filterMap_map, Function.comp_def, Function.comp_def, List.filterMap_congr htokens,
    List.filterMap_congr hdiagnostics, List.map_append, List.map_filterMap, List.map_filterMap]
  rfl

/-- The relabelling that puts the end mark in the place of every foreign character. -/
def Relabelling.toEndMark : Relabelling where
  apply c := if Lead.of c = .foreign then Scanner.endMark else c
  keeps _ h := if_neg fun hc => h (isForeign_iff.mpr hc)
  foreign c h := by
    rw [if_pos (isForeign_iff.mp h)]
    exact isForeign_iff.mpr rfl

/-- End marks between a number and a dot, in a string and in a comment. -/
theorem scan_relabelled_toEndMark :
    let source : Text := ['1', '@', '.', '"', 'é', '?', '"', '/', '/', 'é']
    scan (source.map Relabelling.toEndMark.apply) = {
      tokens := [⟨.number, ['1'], .number (Double.nearest 1 1), 1, 0⟩,
        ⟨.symbol .dot, ['.'], .none, 1, 2⟩,
        ⟨.string, ['"', '\x00', '\x00', '"'], .text ['\x00', '\x00'], 1, 3⟩, endToken 10 1]
      diagnostics := [(Fault.unexpectedCharacter '\x00').diagnostic 1]
      line := 1 } := by
  intro source
  rw [scan_relabelled Relabelling.toEndMark source]
  decide +kernel

end LoxLex
