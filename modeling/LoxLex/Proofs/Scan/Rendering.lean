import LoxLex.Proofs.Grammar.Lexeme
import LoxLex.Proofs.Scan.Placed

/-!
# Rendering

A `Layout` is a way to write down a list of lexemes with gaps of blanks and comments between them.
`scan_rendering`: a scan of the text gives the lexemes back, whatever they are and whatever the
gaps hold, and so do the lexemes of any scan after they are joined by a gap of any kind.
-/

namespace LoxLex

open Grammar (blanks isBlank_iff)

/-- A blank or a comment with the end of its line. -/
inductive Trivia where
  | blank (c : Char) (isBlank : c ∈ blanks)
  | comment (body : Text) (isLine : '\n' ∉ body)

/-- What separates two lexemes: a blank, and more blanks and comments. -/
structure Gap where
  first : Char
  isBlank : first ∈ blanks
  more : List Trivia

structure Lexeme where
  kind : Kind
  text : Text
  spells : kind.Spells text

/-- Lexemes in order, each with a gap after it but the last, which may do without. -/
inductive Layout where
  | done
  | last (w : Lexeme)
  | cons (w : Lexeme) (gap : Gap) (rest : Layout)

def Trivia.text : Trivia → Text
  | blank c _ => [c]
  | comment body _ => '/' :: '/' :: body ++ ['\n']

def Gap.text (g : Gap) : Text := g.first :: g.more.flatMap Trivia.text

def leading : Option Gap → Text
  | none => []
  | some g => g.text

/-- The token that the lexeme is after the text `before`. -/
def Lexeme.token (before : Text) (w : Lexeme) : Token :=
  ⟨w.kind, w.text, w.kind.literal w.text, 1 + Text.newlines before, before.length⟩

/-- What a token is, wherever it stands. -/
def Token.content (t : Token) : Kind × Text × Literal := (t.kind, t.lexeme, t.literal)

def Lexeme.content (w : Lexeme) : Kind × Text × Literal := (w.kind, w.text, w.kind.literal w.text)

namespace Layout

def text : Layout → Text
  | done => []
  | last w => w.text
  | cons w gap rest => w.text ++ (gap.text ++ rest.text)

def tokens (before : Text) : Layout → List Token
  | done => []
  | last w => [w.token before]
  | cons w gap rest => w.token before :: rest.tokens (before ++ w.text ++ gap.text)

/-- The lexemes with the same gap between any two of them. -/
def joined (gap : Gap) : List Lexeme → Layout
  | [] => done
  | [w] => last w
  | w :: ws => cons w gap (joined gap ws)

end Layout

/-! ## Gaps -/

def Trivia.pieces : Trivia → List Piece
  | blank c _ => [.blank c]
  | comment body _ => [.comment body, .blank '\n']

def Gap.pieces (g : Gap) : List Piece := .blank g.first :: g.more.flatMap Trivia.pieces

theorem Trivia.text_pieces (t : Trivia) : t.pieces.flatMap Piece.text = t.text := by
  cases t <;> simp [pieces, text, Piece.text]

theorem Trivia.stand (t : Trivia) (rest : Text) : Stand t.pieces rest := by
  cases t with
  | blank c h => exact ⟨isBlank_iff.mpr h, trivial, trivial⟩
  | comment body h => exact ⟨h, .cons rfl _, rfl, trivial, trivial⟩

theorem Gap.text_pieces (g : Gap) : g.pieces.flatMap Piece.text = g.text := by
  rw [pieces, List.flatMap_cons, List.flatMap_assoc]
  simp only [Trivia.text_pieces]
  rfl

theorem Gap.stand (g : Gap) (rest : Text) : Stand g.pieces rest := by
  refine ⟨isBlank_iff.mpr g.isBlank, trivial, ?_⟩
  induction g.more with
  | nil => trivial
  | cons t ts ih =>
    rw [List.flatMap_cons, Stand.append_iff]
    exact ⟨t.stand _, ih⟩

theorem Gap.pieces_silent (g : Gap) : ∀ p ∈ g.pieces, p.token? = none ∧ p.fault? = none := by
  intro p hp
  rcases List.mem_cons.mp hp with rfl | hp
  · exact ⟨rfl, rfl⟩
  · obtain ⟨t, -, hp⟩ := List.mem_flatMap.mp hp
    cases t <;> simp [Trivia.pieces] at hp
    · subst hp; exact ⟨rfl, rfl⟩
    · rcases hp with rfl | rfl <;> exact ⟨rfl, rfl⟩

/-! ## Lexemes -/

theorem endsRun_of_blank {p : Char → Bool} {rest : Text} (hp : blanks.any p = false)
    (hr : ∀ c ∈ rest.head?, isBlank c = true) : EndsRun p rest :=
  fun c hc => by simpa using List.any_eq_false.mp hp c (isBlank_iff.mp (hr c hc))

/-- A piece that stands for a token stops at a blank and at the end of the text. -/
theorem stopsAt_of_blank {p : Piece} {rest : Text} (ht : p.token?.isSome = true)
    (hr : ∀ c ∈ rest.head?, isBlank c = true) : p.StopsAt rest := by
  cases p with
  | symbol s =>
    exact ⟨fun _ => endsRun_of_blank (by decide) hr, fun _ => endsRun_of_blank (by decide) hr⟩
  | numeral n =>
    refine ⟨endsRun_of_blank (by decide) hr, fun _ => ?_⟩
    cases rest with
    | nil => rfl
    | cons c rest =>
      have hc : c ≠ '.' := by rintro rfl; cases hr _ rfl
      simp [Piece.startsFraction_cons, hc]
  | word w => exact endsRun_of_blank (by decide) hr
  | quoted _ | blank _ | foreign _ => trivial
  | comment _ | unclosed _ => cases ht

theorem fault?_of_token? {p : Piece} (h : p.token?.isSome = true) : p.fault? = none := by
  rcases p.token?_eq_none_or_fault?_eq_none with hp | hp
  · rw [hp] at h
    cases h
  · exact hp

theorem Lexeme.token?_placed {w : Lexeme} {p : Piece} (htext : p.text = w.text)
    (htoken : p.token? = some (w.kind, w.kind.literal w.text)) (before : Text) :
    Placed.token? ⟨before.length, 1 + Text.newlines before, p⟩ = some (w.token before) := by
  rw [Placed.token?, htoken, htext]
  rfl

/-- The pieces of a layout stand for its tokens and have no faults. -/
theorem Layout.exists_pieces (l : Layout) :
    ∃ ps, Stand ps [] ∧ ps.flatMap Piece.text = l.text ∧
      (∀ before, (placeAfter before ps).filterMap Placed.token? = l.tokens before) ∧
      ∀ p ∈ ps, p.fault? = none := by
  induction l with
  | done => exact ⟨[], trivial, rfl, fun _ => rfl, by simp⟩
  | last w =>
    obtain ⟨p, hp, htext, htoken⟩ := Piece.exists_of_spells w.spells
    have hsome : p.token?.isSome = true := by rw [htoken]; rfl
    refine ⟨[p], ⟨hp, stopsAt_of_blank hsome (by simp), trivial⟩, by simpa [text] using htext,
      fun before => ?_, by simpa using fault?_of_token? hsome⟩
    rw [filterMap_placeAfter_cons, Lexeme.token?_placed htext htoken]
    rfl
  | cons w gap rest ih =>
    obtain ⟨p, hp, htext, htoken⟩ := Piece.exists_of_spells w.spells
    obtain ⟨ps, hps, hpstext, hpstokens, hfaults⟩ := ih
    have hsome : p.token?.isSome = true := by rw [htoken]; rfl
    refine ⟨p :: (gap.pieces ++ ps), ⟨hp, stopsAt_of_blank hsome fun c hc => ?_, ?_⟩, ?_,
      fun before => ?_, fun q hq => ?_⟩
    · cases hc
      exact isBlank_iff.mpr gap.isBlank
    · rw [Stand.append_iff]
      exact ⟨gap.stand _, hps⟩
    · simp only [List.flatMap_cons, List.flatMap_append, htext, gap.text_pieces, hpstext, text]
    · rw [filterMap_placeAfter_cons, Lexeme.token?_placed htext htoken, placeAfter_append,
        List.filterMap_append, filterMap_placeAfter_eq_nil fun x hx => ?_, hpstokens,
        gap.text_pieces, htext]
      · rfl
      · rw [Placed.token?, (gap.pieces_silent x.piece hx).1]
        rfl
    · rcases List.mem_cons.mp hq with rfl | hq
      · exact fault?_of_token? hsome
      · rcases List.mem_append.mp hq with hq | hq
        · exact (gap.pieces_silent q hq).2
        · exact hfaults q hq

theorem exists_leading_pieces (lead : Option Gap) :
    ∃ ps, (∀ rest, Stand ps rest) ∧ ps.flatMap Piece.text = leading lead ∧
      ∀ p ∈ ps, p.token? = none ∧ p.fault? = none := by
  cases lead with
  | none => exact ⟨[], fun _ => trivial, rfl, by simp⟩
  | some g => exact ⟨g.pieces, g.stand, g.text_pieces, g.pieces_silent⟩

theorem scan_layout (lead : Option Gap) (l : Layout) :
    scan (leading lead ++ l.text) = {
      tokens := l.tokens (leading lead) ++ [endToken (leading lead ++ l.text).length
        (1 + Text.newlines (leading lead ++ l.text))]
      diagnostics := []
      line := 1 + Text.newlines (leading lead ++ l.text) } := by
  obtain ⟨qs, hqs, hqstext, hqsilent⟩ := exists_leading_pieces lead
  obtain ⟨ps, hps, hpstext, htokens, hfaults⟩ := l.exists_pieces
  have hpieces : pieces (leading lead ++ l.text) = qs ++ ps := by
    refine pieces_eq_iff.mpr ⟨?_, Stand.append_iff.mpr ⟨hqs _, hps⟩⟩
    rw [List.flatMap_append, hqstext, hpstext]
  have hlead : (placeAfter [] qs).filterMap Placed.token? = [] :=
    filterMap_placeAfter_eq_nil fun x hx => by rw [Placed.token?, (hqsilent _ hx).1]; rfl
  have hnone : (placeAfter [] (qs ++ ps)).filterMap Placed.diagnostic? = [] := by
    refine filterMap_placeAfter_eq_nil fun x hx => ?_
    have : x.piece.fault? = none := by
      rcases List.mem_append.mp hx with hx | hx
      · exact (hqsilent _ hx).2
      · exact hfaults _ hx
    rw [Placed.diagnostic?, this]
    rfl
  rw [scan_eq, hpieces, hnone, placeAfter_append, List.filterMap_append, hlead, hqstext,
    List.nil_append, List.nil_append, htokens]

/-! ## Joining the lexemes of a scan -/

theorem spells_of_mem_tokens {source : Text} {t : Token} (h : t ∈ (scan source).tokens.dropLast) :
    t.kind.Spells t.lexeme ∧ t.literal = t.kind.literal t.lexeme := by
  rw [scan_eq, List.dropLast_concat] at h
  obtain ⟨x, hx, ht⟩ := List.mem_filterMap.mp h
  obtain ⟨⟨k, v⟩, hkv, rfl⟩ := Option.map_eq_some_iff.mp ht
  obtain ⟨qs, rs, hps, -, -⟩ := mem_placeAfter hx
  exact Piece.spells_of_token? ((stand_pieces source).wellFormed _ (by simp [hps])) hkv

theorem exists_lexemes {ts : List Token}
    (h : ∀ t ∈ ts, t.kind.Spells t.lexeme ∧ t.literal = t.kind.literal t.lexeme) :
    ∃ ws : List Lexeme, ws.map Lexeme.content = ts.map Token.content := by
  induction ts with
  | nil => exact ⟨[], rfl⟩
  | cons t ts ih =>
    obtain ⟨ws, hws⟩ := ih fun t ht => h t (List.mem_cons_of_mem _ ht)
    obtain ⟨hspells, hliteral⟩ := h t List.mem_cons_self
    refine ⟨⟨t.kind, t.lexeme, hspells⟩ :: ws, ?_⟩
    rw [List.map_cons, List.map_cons, hws, Token.content, hliteral]
    rfl

theorem Layout.text_joined (gap : Gap) (ws : List Lexeme) :
    (joined gap ws).text = Text.joinWith gap.text (ws.map Lexeme.text) := by
  induction ws with
  | nil => rfl
  | cons w ws ih =>
    cases ws with
    | nil => simp [joined, text, Text.joinWith]
    | cons v ws =>
      simp only [joined, text, ih, Text.joinWith, List.map_cons, List.intercalate_cons_cons,
        List.append_assoc]

theorem Layout.content_tokens_joined (gap : Gap) (ws : List Lexeme) (before : Text) :
    ((joined gap ws).tokens before).map Token.content = ws.map Lexeme.content := by
  induction ws generalizing before with
  | nil => rfl
  | cons w ws ih =>
    cases ws with
    | nil => rfl
    | cons v ws =>
      rw [joined, tokens, List.map_cons, ih, List.map_cons]
      · rfl
      · simp

theorem content_tokens_scan (source : Text) :
    (scan source).tokens.map Token.content =
      (scan source).tokens.dropLast.map Token.content ++ [(.endOfInput, [], .none)] := by
  rw [scan_eq, List.dropLast_concat, List.map_append]
  rfl

/-- Lexemes that are written with gaps between them scan back to what they are, each where it was
written. So do the lexemes of any scan if a gap is put between them. -/
theorem scan_rendering :
    (∀ (lead : Option Gap) (l : Layout),
      scan (leading lead ++ l.text) = {
        tokens := l.tokens (leading lead) ++ [endToken (leading lead ++ l.text).length
          (1 + Text.newlines (leading lead ++ l.text))]
        diagnostics := []
        line := 1 + Text.newlines (leading lead ++ l.text) }) ∧
    ∀ (source : Text) (gap : Gap),
      let again := scan (Text.joinWith gap.text ((scan source).tokens.dropLast.map Token.lexeme))
      again.diagnostics = [] ∧
        again.tokens.map Token.content = (scan source).tokens.map Token.content := by
  refine ⟨scan_layout, fun source gap => ?_⟩
  obtain ⟨ws, hws⟩ := exists_lexemes fun t (ht : t ∈ (scan source).tokens.dropLast) =>
    spells_of_mem_tokens ht
  have htexts : (scan source).tokens.dropLast.map Token.lexeme = ws.map Lexeme.text := by
    have := congrArg (List.map fun content => content.2.1) hws
    rw [List.map_map, List.map_map] at this
    exact this.symm
  have hjoin := scan_layout none (.joined gap ws)
  rw [leading, List.nil_append, Layout.text_joined, ← htexts] at hjoin
  simp only [hjoin, true_and]
  rw [List.map_append, Layout.content_tokens_joined, hws, content_tokens_scan]
  rfl

end LoxLex
