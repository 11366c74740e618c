import LoxLex.Proofs.Scan.Unclosed

/-!
# Bounded lookahead

A source and any text that goes on after it have the same pieces up to two characters before the end
of the source (`within_pieces_append`), and the same up to the last unexpected character of the
source (`pieces_append_of_foreign`). `scan_lookahead` says so of tokens and diagnostics.
-/

namespace LoxLex

/-- The first pieces, as many as fit into `n` characters. -/
def within : Nat → List Piece → List Piece
  | _, [] => []
  | n, p :: ps => if p.text.length ≤ n then p :: within (n - p.text.length) ps else []

theorem within_zero {ps : List Piece} (h : ∀ p ∈ ps, p.WellFormed) : within 0 ps = [] := by
  cases ps with
  | nil => rfl
  | cons p ps =>
    have := (h p List.mem_cons_self).length_pos
    rw [within, if_neg (by omega)]

/-- A first piece that leaves two characters of `rest` is the first piece whatever comes after. -/
theorem exists_split_append {c : Char} {rest t : Text}
    (h : (Piece.split c (rest ++ t)).1.text.length + 2 ≤ (c :: rest).length) :
    ∃ p after, p.text ++ after = c :: rest ∧
      ∀ t', Piece.split c (rest ++ t') = (p, after ++ t') := by
  obtain ⟨hw, hs⟩ := Piece.split_stops c (rest ++ t)
  have htext : _ = (c :: rest) ++ t := Piece.split_text c (rest ++ t)
  obtain ⟨p, more, hsplit⟩ : ∃ p more, Piece.split c (rest ++ t) = (p, more) := ⟨_, _, rfl⟩
  simp only [hsplit] at h hw hs htext
  obtain ⟨c', w, hp⟩ := hw.exists_cons
  obtain ⟨after, he, rfl⟩ : ∃ after, p.text ++ after = c :: rest ∧ more = after ++ t := by
    obtain ⟨after, he, hmore⟩ | ⟨beyond, he, -⟩ := List.append_eq_append_iff.mp htext
    · exact ⟨after, he.symm, hmore⟩
    · replace he := congrArg List.length he
      simp only [List.length_append] at he
      omega
  have hlength := congrArg List.length he
  rw [List.length_append] at hlength
  obtain ⟨d, e, after, rfl⟩ : ∃ d e more, after = d :: e :: more := by
    match after, show 2 ≤ after.length by omega with
    | d :: e :: more, _ => exact ⟨d, e, more, rfl⟩
  refine ⟨p, d :: e :: after, he, fun t' => ?_⟩
  rw [hp, List.cons_append, List.cons.injEq] at he
  obtain ⟨rfl, rfl⟩ := he
  rw [List.append_assoc]
  refine Piece.split_of_stops hp hw (hs.congr rfl ?_)
  simp only [List.cons_append, Piece.startsFraction_cons, List.head?_cons]

theorem within_pieces_append (s t : Text) :
    within (s.length - 2) (pieces (s ++ t)) = within (s.length - 2) (pieces s) := by
  fun_induction pieces s with
  | case1 => exact within_zero (stand_pieces _).wellFormed
  | case2 c rest first ih =>
    rw [List.cons_append, pieces]
    by_cases hfirst : first.1.text.length + 2 ≤ (c :: rest).length
    · obtain ⟨p, after, he, hsplit⟩ := exists_split_append (t := []) (by simpa using hfirst)
      have hs : first = (p, after) := by simpa using hsplit []
      have hlength := congrArg List.length he
      rw [List.length_append] at hlength
      rw [hs] at ih hfirst ⊢
      dsimp only at ih hfirst
      simp only [hsplit t, within, if_pos (show p.text.length ≤ (c :: rest).length - 2 by omega)]
      rw [show (c :: rest).length - 2 - p.text.length = after.length - 2 by omega, ih]
    · -- A first piece of the longer text that ends so early would be the one of the shorter text.
      have hsecond :
          ¬ (Piece.split c (rest ++ t)).1.text.length + 2 ≤ (c :: rest).length := by
        intro h
        obtain ⟨p, after, -, hsplit⟩ := exists_split_append h
        have hs : first = (p, after) := by simpa using hsplit []
        rw [hsplit t] at h
        exact hfirst (hs ▸ h)
      have : 0 < first.1.text.length := (Piece.split_stops c rest).1.length_pos
      have := (Piece.split_stops c (rest ++ t)).1.length_pos
      rw [within, within, if_neg (by omega), if_neg (by omega)]

/-! ## Tokens -/

/-- The tokens but for the end token that end at `stop` or before. -/
def Scan.tokensUpTo (r : Scan) (stop : Int) : List Token :=
  r.tokens.filter fun t => t.kind ≠ .endOfInput ∧ t.stop ≤ stop

theorem stop_of_mem_place {offset line : Nat} {p : Piece} {ps : List Piece} {x : Placed}
    (h : x ∈ place offset line (p :: ps)) :
    offset + p.text.length ≤ x.offset + x.piece.text.length := by
  obtain rfl | h := List.mem_cons.mp h
  · exact Nat.le_refl _
  · obtain ⟨before, -, -, ho, -⟩ := mem_place h
    omega

theorem filter_tokens_place (offset line n : Nat) (ps : List Piece) :
    (((place offset line ps).filterMap Placed.token?).filter fun t : Token =>
      t.stop ≤ (offset + n : Nat)) = (place offset line (within n ps)).filterMap Placed.token? := by
  induction ps generalizing offset line n with
  | nil => rfl
  | cons p ps ih =>
    by_cases hp : p.text.length ≤ n
    · have := ih (offset + p.text.length) (line + Text.newlines p.text) (n - p.text.length)
      rw [show offset + p.text.length + (n - p.text.length) = offset + n by omega] at this
      rw [within, if_pos hp, place, place, List.filterMap_cons, List.filterMap_cons]
      cases ht : Placed.token? ⟨offset, line, p⟩ with
      | none => exact this
      | some t =>
        have hstop := Placed.stop_of_token? ht
        rw [List.filter_cons_of_pos (by rw [hstop]; simpa using hp), this]
    · -- This piece goes too far, and so do all the pieces that come after it.
      rw [within, if_neg hp, place, List.filterMap_nil, List.filter_eq_nil_iff]
      intro t ht
      obtain ⟨x, hx, hxt⟩ := List.mem_filterMap.mp ht
      have := stop_of_mem_place hx
      rw [Placed.stop_of_token? hxt, decide_eq_true_eq]
      omega

theorem tokensUpTo_scan (source : Text) (stop : Int) :
    (scan source).tokensUpTo stop =
      (placeAfter [] (within stop.toNat (pieces source))).filterMap Placed.token? := by
  have hend (o l : Nat) : ([endToken o l].filter fun t : Token =>
      t.kind ≠ .endOfInput ∧ t.stop ≤ stop) = [] := rfl
  have key := filter_tokens_place 0 1 stop.toNat (pieces source)
  rw [Nat.zero_add] at key
  rw [Scan.tokensUpTo, scan_eq, List.filter_append, hend, List.append_nil]
  refine Eq.trans (List.filter_congr fun t ht => ?_) key
  obtain ⟨x, hx, hxt⟩ := List.mem_filterMap.mp ht
  have := (wellFormed_of_mem_placeAfter hx).length_pos
  have hstop := Placed.stop_of_token? hxt
  rw [decide_eq_decide, and_iff_right (Placed.kind_of_token? hxt)]
  omega

/-! ## Diagnostics -/

theorem exists_last_foreign (ps : List Piece) :
    (∀ c, Piece.foreign c ∉ ps) ∨
      ∃ qs c rs, ps = qs ++ .foreign c :: rs ∧ ∀ d, Piece.foreign d ∉ rs := by
  induction ps with
  | nil => exact .inl fun c => List.not_mem_nil
  | cons p ps ih =>
    obtain h | ⟨qs, c, rs, rfl, h⟩ := ih
    · by_cases hp : ∃ c, p = .foreign c
      · obtain ⟨c, rfl⟩ := hp
        exact .inr ⟨[], c, ps, rfl, h⟩
      · exact .inl fun c hc => (List.mem_cons.mp hc).elim (fun e => hp ⟨c, e.symm⟩) (h c)
    · exact .inr ⟨p :: qs, c, rs, rfl, h⟩

/-- An unexpected character ends the piece before it, whatever comes after. -/
theorem Stand.of_foreign {ps : List Piece} {c : Char} {rest : Text}
    (h : Stand (ps ++ [.foreign c]) rest) (rest' : Text) : Stand (ps ++ [.foreign c]) rest' := by
  obtain ⟨hps, hc, -, -⟩ := Stand.append_iff.mp h
  have hdot : c ≠ '.' := by rintro rfl; cases hc
  refine Stand.append_iff.mpr ⟨hps.congr rfl ?_, hc, trivial, trivial⟩
  simp only [List.flatMap_cons, Piece.text, List.cons_append, Piece.startsFraction_cons, hdot,
    decide_false, Bool.false_and]

theorem pieces_append_of_foreign {s : Text} {qs rs : List Piece} {c : Char}
    (h : pieces s = qs ++ .foreign c :: rs) (t : Text) :
    pieces (s ++ t) = (qs ++ [.foreign c]) ++ pieces (rs.flatMap Piece.text ++ t) := by
  obtain ⟨htext, hstand⟩ := pieces_eq_iff.mp h
  rw [List.append_cons, Stand.append_iff] at hstand
  rw [← pieces_append (hstand.1.of_foreign _), ← htext, List.append_cons qs, List.flatMap_append,
    List.append_assoc]

theorem withCode_unexpected_eq_nil {before : Text} {ps : List Piece}
    (h : ∀ c, Piece.foreign c ∉ ps) :
    withCode "L001".toList ((placeAfter before ps).filterMap Placed.diagnostic?) = [] :=
  withCode_eq_nil fun p hp fault hf => by
    obtain ⟨c, rfl, -⟩ | ⟨body, -, rfl⟩ := Piece.fault?_cases hf
    · exact absurd hp (h c)
    · exact nofun

theorem unexpected_scan_prefix (s t : Text) :
    withCode "L001".toList (scan s).diagnostics <+: (scan (s ++ t)).diagnostics := by
  show withCode _ ((placeAfter [] (pieces s)).filterMap Placed.diagnostic?) <+:
    (placeAfter [] (pieces (s ++ t))).filterMap Placed.diagnostic?
  obtain h | ⟨qs, c, rs, hps, hrs⟩ := exists_last_foreign (pieces s)
  · rw [withCode_unexpected_eq_nil h]
    exact List.nil_prefix
  · have hstand := stand_pieces s
    rw [hps, Stand.append_iff] at hstand
    have hqs (body) : Piece.unclosed body ∉ qs ++ [.foreign c] := by
      simpa using hstand.1.not_mem_unclosed nofun body
    rw [pieces_append_of_foreign hps, hps, List.append_cons qs]
    simp only [placeAfter_append [] (qs ++ [.foreign c]), List.filterMap_append, withCode_append,
      withCode_unexpected_eq_nil hrs, withCode_eq_self (code_of_not_mem_unclosed hqs),
      List.append_nil]
    exact List.prefix_append _ _

theorem scan_lookahead (s t : Text) :
    (scan s).tokensUpTo (s.length - 2) = (scan (s ++ t)).tokensUpTo (s.length - 2) ∧
      withCode "L001".toList (scan s).diagnostics <+: (scan (s ++ t)).diagnostics := by
  refine ⟨?_, unexpected_scan_prefix s t⟩
  have hstop : ((s.length : Int) - 2).toNat = s.length - 2 := by omega
  rw [tokensUpTo_scan, tokensUpTo_scan, hstop, within_pieces_append]

end LoxLex
