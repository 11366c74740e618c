import LoxLex.Proofs.Scan.Concatenation
import LoxLex.Proofs.Scan.Unclosed

/-!
# Line breaks

A line break ends whatever comes before it but an open string, so the scan of a text is put together
from the scans on either side of the break (`scan_above`) and, break by break, from the scans of its
lines (`scan_lines`).
-/

namespace LoxLex

/-! ## One break -/

theorem pieces_newline_cons (t : Text) : pieces ('\n' :: t) = .blank '\n' :: pieces t := by
  have hnewline : Stand [.blank '\n'] t := ⟨rfl, trivial, trivial⟩
  exact pieces_append hnewline

theorem scan_above {a : Text} (h : withCode "L002".toList (scan a).diagnostics = []) (b : Text) :
    scan (a ++ '\n' :: b) = {
      tokens := (scan a).tokens.dropLast ++
        (scan b).tokens.map (Token.moved (a.length + 1) (scan a).line)
      diagnostics := (scan a).diagnostics ++
        (scan b).diagnostics.map (Diagnostic.moved (scan a).line)
      line := (scan a).line + (scan b).line } := by
  have hbreak (t : Text) : pieces (a ++ '\n' :: t) = pieces a ++ .blank '\n' :: pieces t := by
    rw [pieces_append_delimiter (by decide) (unterminated_eq_nil_iff.mp h) (fun _ _ => rfl),
      pieces_newline_cons]
  have hfirst : pieces (a ++ ['\n']) = pieces a ++ [.blank '\n'] := by
    rw [hbreak, pieces]
  have hboth : pieces (a ++ ['\n'] ++ b) = pieces (a ++ ['\n']) ++ pieces b := by
    rw [hfirst, List.append_assoc, List.append_assoc]
    exact hbreak b
  have hfirstscan : scan (a ++ ['\n']) = {
      tokens := (scan a).tokens.dropLast ++ [endToken (a.length + 1) ((scan a).line + 1)]
      diagnostics := (scan a).diagnostics
      line := (scan a).line + 1 } := by
    rw [scan_append_piece hfirst]
    simp [Placed.token?, Placed.diagnostic?, Piece.token?, Piece.fault?, Text.newlines]
  have hlines : Text.newlines (a ++ ['\n']) = (scan a).line := by
    rw [Text.newlines_append, Nat.add_comm]
    rfl
  have hlength : ((a ++ ['\n']).length : Int) = a.length + 1 := by simp
  rw [List.append_cons, scan_append hboth, hlines, hlength, hfirstscan, List.dropLast_concat]

/-! ## Lines -/

/-- How many characters stand before line `i`. -/
def lineOffset (ls : List Text) (i : Nat) : Nat := ((ls.take i).flatMap (· ++ ['\n'])).length

/-- The scans of the lines, each of them moved to where it belongs in a text of `length`
characters. -/
def Scan.ofLines (ls : List Text) (length : Nat) : Scan where
  tokens := ls.zipIdx.flatMap (fun (l, i) =>
    (scan l).tokens.dropLast.map (Token.moved (lineOffset ls i) i)) ++ [endToken length ls.length]
  diagnostics := ls.zipIdx.flatMap fun (l, i) => (scan l).diagnostics.map (Diagnostic.moved i)
  line := ls.length

theorem tokens_scan_eq (source : Text) :
    (scan source).tokens = (scan source).tokens.dropLast ++
      [endToken source.length (scan source).line] := by
  rw [scan_eq, List.dropLast_concat]

theorem line_scan_of_line {l : Text} (h : '\n' ∉ l) : (scan l).line = 1 := by
  rw [scan_eq, Text.newlines, List.count_eq_zero_of_not_mem h]

theorem Scan.ofLines_singleton {l : Text} (h : '\n' ∉ l) : Scan.ofLines [l] l.length = scan l := by
  have htokens := tokens_scan_eq l
  rw [line_scan_of_line h] at htokens
  simp only [ofLines, List.zipIdx_singleton, List.flatMap_singleton, lineOffset, List.take_zero,
    List.flatMap_nil, List.length_nil, Int.ofNat_zero, Token.moved_zero, Diagnostic.moved_zero,
    List.map_id, List.length_singleton]
  rw [← htokens, ← line_scan_of_line h]

theorem lineOffset_cons (l : Text) (ls : List Text) (i : Nat) :
    (lineOffset (l :: ls) (i + 1) : Int) = lineOffset ls i + (l.length + 1) := by
  simp only [lineOffset, List.take_succ_cons, List.flatMap_cons, List.length_append,
    List.length_singleton]
  omega

theorem Scan.ofLines_cons {l : Text} (h : '\n' ∉ l) (ls : List Text) (length : Nat) :
    Scan.ofLines (l :: ls) (l.length + 1 + length) = {
      tokens := (scan l).tokens.dropLast ++
        (Scan.ofLines ls length).tokens.map (Token.moved (l.length + 1) (scan l).line)
      diagnostics := (scan l).diagnostics ++
        (Scan.ofLines ls length).diagnostics.map (Diagnostic.moved (scan l).line)
      line := (scan l).line + (Scan.ofLines ls length).line } := by
  have hzero : Token.moved (lineOffset (l :: ls) 0) (0 : Nat) = id := Token.moved_zero
  have hzero' : Diagnostic.moved (0 : Nat) = id := Diagnostic.moved_zero
  -- the lines below are one line and the characters of `l` further on
  have htoken (i : Nat) : Token.moved (lineOffset (l :: ls) (i + 1)) (i + 1 : Nat) =
      Token.moved (l.length + 1) 1 ∘ Token.moved (lineOffset ls i) i := by
    funext t
    simp only [Token.moved, Function.comp_apply, lineOffset_cons, Int.natCast_add, Int.add_assoc]
    rfl
  have hdiagnostic (i : Nat) :
      Diagnostic.moved (i + 1 : Nat) = Diagnostic.moved 1 ∘ Diagnostic.moved i := by
    funext d
    simp only [Diagnostic.moved, Function.comp_apply, Int.natCast_add, Int.add_assoc]
    rfl
  have hend : endToken (l.length + 1 + length) (ls.length + 1) =
      (endToken length ls.length).moved (l.length + 1) 1 := by
    simp only [endToken, Token.moved, Token.mk.injEq, true_and]
    omega
  simp only [ofLines, line_scan_of_line h, Int.natCast_one, List.zipIdx_cons, List.zipIdx_succ,
    List.flatMap_cons, List.flatMap_map, Nat.zero_add, hzero, hzero', List.map_id, htoken,
    hdiagnostic, hend, List.length_cons, List.map_append, List.map_flatMap, List.map_map,
    List.append_assoc, List.map_singleton, Nat.add_comm 1]

theorem not_mem_of_mem_splitOn {c : Char} {t l : Text} (h : l ∈ t.splitOn c) : c ∉ l := by
  induction t generalizing l with
  | nil =>
    cases List.mem_singleton.mp h
    exact List.not_mem_nil
  | cons d t ih =>
    obtain ⟨m, ms, hms⟩ := List.exists_cons_of_ne_nil (List.splitOn_ne_nil c t)
    rw [List.splitOn_cons_eq_if_modifyHead, hms] at h
    rw [hms] at ih
    split at h
    · obtain rfl | h := List.mem_cons.mp h
      · exact List.not_mem_nil
      · exact ih h
    · next hd =>
      obtain rfl | h := List.mem_cons.mp h
      · have hm : c ∉ m := ih List.mem_cons_self
        have hcd : c ≠ d := fun e => hd (beq_iff_eq.mpr e.symm)
        simp [hm, hcd]
      · exact ih (List.mem_cons_of_mem m h)

theorem scan_intercalate {l : Text} {ls : List Text} (hline : ∀ x ∈ l :: ls, '\n' ∉ x)
    (h : ∀ x ∈ (l :: ls).dropLast, withCode "L002".toList (scan x).diagnostics = []) :
    scan (['\n'].intercalate (l :: ls)) =
      Scan.ofLines (l :: ls) (['\n'].intercalate (l :: ls)).length := by
  induction ls generalizing l with
  | nil =>
    rw [List.intercalate_singleton, Scan.ofLines_singleton (hline l List.mem_cons_self)]
  | cons m ls ih =>
    have hbelow := ih (fun x hx => hline x (List.mem_cons_of_mem l hx))
      fun x hx => h x (List.mem_cons_of_mem l hx)
    have hl := h l (by simp)
    have htext : ['\n'].intercalate (l :: m :: ls) =
        l ++ '\n' :: ['\n'].intercalate (m :: ls) := by simp
    have hlength : (['\n'].intercalate (l :: m :: ls)).length =
        l.length + 1 + (['\n'].intercalate (m :: ls)).length := by
      rw [htext, List.length_append, List.length_cons]
      omega
    rw [hlength, Scan.ofLines_cons (hline l List.mem_cons_self), htext, scan_above hl, hbelow]

/-- The scan of a text with a break in it is that of what comes before the break and, moved on, that
of what comes after. So a text scans to what its lines scan to; only the last of them may end in an
open string. -/
theorem scan_lines :
    (∀ a b, withCode "L002".toList (scan a).diagnostics = [] →
      scan (a ++ '\n' :: b) = {
        tokens := (scan a).tokens.dropLast ++
          (scan b).tokens.map (Token.moved (a.length + 1) (scan a).line)
        diagnostics := (scan a).diagnostics ++
          (scan b).diagnostics.map (Diagnostic.moved (scan a).line)
        line := (scan a).line + (scan b).line }) ∧
    ∀ t : Text,
      (∀ l ∈ (t.splitOn '\n').dropLast, withCode "L002".toList (scan l).diagnostics = []) →
      scan t = Scan.ofLines (t.splitOn '\n') t.length := by
  refine ⟨fun a b h => scan_above h b, fun t h => ?_⟩
  have hline : ∀ l ∈ t.splitOn '\n', '\n' ∉ l := fun l hl => not_mem_of_mem_splitOn hl
  have htext : ['\n'].intercalate (t.splitOn '\n') = t := List.intercalate_splitOn '\n'
  obtain ⟨l, ls, hls⟩ := List.exists_cons_of_ne_nil (List.splitOn_ne_nil '\n' t)
  rw [hls] at h hline htext ⊢
  have hscan := scan_intercalate hline h
  rwa [htext] at hscan

/-- A number whose dot is cut off from its fraction, and lines that end in an operator, in a comment
with a quote and in an open string. -/
theorem scan_lines_cut :
    let a : Text := ['~', '1', '.']
    let t : Text := ['=', '\n', '=', '/', '/', '"', '\n', '@', '"']
    withCode "L002".toList (scan a).diagnostics = [] ∧
      scan (a ++ '\n' :: ['5', '@']) = {
        tokens := [⟨.number, ['1'], .number (Double.nearest 1 1), 1, 1⟩,
          ⟨.symbol .dot, ['.'], .none, 1, 2⟩, ⟨.number, ['5'], .number (Double.nearest 5 1), 2, 4⟩,
          endToken 6 2]
        diagnostics := [(Fault.unexpectedCharacter '~').diagnostic 1,
          (Fault.unexpectedCharacter '@').diagnostic 2]
        line := 2 } ∧
      (∀ l ∈ (t.splitOn '\n').dropLast, withCode "L002".toList (scan l).diagnostics = []) ∧
      scan t = Scan.ofLines [['='], ['=', '/', '/', '"'], ['@', '"']] 9 := by
  intro a t
  have ha : withCode "L002".toList (scan a).diagnostics = [] := by decide +kernel
  have hlines : t.splitOn '\n' = [['='], ['=', '/', '/', '"'], ['@', '"']] := by decide +kernel
  have ht : ∀ l ∈ (t.splitOn '\n').dropLast, withCode "L002".toList (scan l).diagnostics = [] := by
    decide +kernel
  obtain ⟨hbreak, hall⟩ := scan_lines
  refine ⟨ha, ?_, ht, ?_⟩
  · rw [hbreak a ['5', '@'] ha]
    decide +kernel
  · rw [hall t ht, hlines]
    rfl

end LoxLex
