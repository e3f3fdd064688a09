/-
Depths of lines.

The braces that are open where a line begins are counted for the lines of `splitLines`, blocks are
numbered by line feeds. Where the first brace of a line opens a block, the depth of the block is one
more than the braces open at the beginning of the line, so the two can be compared: entry
`startLine - 1` of the depths is to be `depth - 1`.

It need not be. A form feed ends a line for the one and not for the other, and behind it the numbers of
lines are apart. The entry that is meant then comes later, by as many lines as the text before the line
has more than line feeds (`overlap`). A carriage return before a line feed does no harm, nor do lines whose
braces leave the depth as it was.
-/
import Provenance.Proofs.Outline.Lines
import Provenance.Proofs.Outline.Matching
import Provenance.Proofs.Path

set_option autoImplicit false

namespace Provenance

variable {t u w : Text} {c : Char}

/-! ## Lines by line feeds -/

namespace Text

/-- The text before line number `n`, where only line feeds end lines. -/
def beforeLine (t : Text) (n : Nat) : Text := ((t.splitOn '\n').take (n - 1)).flatMap (· ++ ['\n'])

/-- A text is some lines, with a line feed at the end of each, and the line that it ends on. -/
theorem exists_lines (t : Text) : ∃ (lines : List Text) (last : Text),
    (∀ line ∈ lines, '\n' ∉ line) ∧ '\n' ∉ last ∧ t = lines.flatMap (· ++ ['\n']) ++ last := by
  induction t using List.reverseRecOn with
  | nil => exact ⟨[], [], by simp, by simp, rfl⟩
  | append_singleton t c ih =>
    obtain ⟨lines, last, hlines, hlast, rfl⟩ := ih
    by_cases hc : c = '\n'
    · refine ⟨lines ++ [last], [], ?_, by simp, by simp [hc]⟩
      exact List.forall_mem_append.mpr ⟨hlines, List.forall_mem_singleton.mpr hlast⟩
    · exact ⟨lines, last ++ [c], hlines, by simp [hlast, Ne.symm hc], by simp⟩

theorem splitOn_lines {lines : List Text} (h : ∀ line ∈ lines, '\n' ∉ line) (u : Text) :
    splitOn '\n' (lines.flatMap (· ++ ['\n']) ++ u) = lines ++ splitOn '\n' u := by
  induction lines with
  | nil => rfl
  | cons line lines ih =>
    obtain ⟨hline, hlines⟩ := List.forall_mem_cons.mp h
    rw [List.flatMap_cons, List.append_assoc, List.append_assoc, List.singleton_append,
      splitOn_append hline, ih hlines, List.cons_append]

/-- What stands before the first separator belongs to the first piece. -/
theorem splitOn_begins {sep : Char} (h : sep ∉ w) (u : Text) :
    ∃ piece pieces, splitOn sep (w ++ u) = (w ++ piece) :: pieces := by
  induction w with
  | nil =>
    obtain ⟨piece, pieces, hu⟩ := List.exists_cons_of_ne_nil (splitOn_ne_nil sep u)
    exact ⟨piece, pieces, hu⟩
  | cons c w ih =>
    rw [List.mem_cons, not_or] at h
    obtain ⟨piece, pieces, hrest⟩ := ih h.2
    refine ⟨piece, pieces, ?_⟩
    rw [List.cons_append, splitOn, if_neg (Ne.symm h.1), hrest]
    rfl

theorem atLine_lines (lines : List Text) : AtLine (lines.flatMap (· ++ ['\n'])) := by
  rcases List.eq_nil_or_concat lines with rfl | ⟨lines, line, rfl⟩
  · exact .inl rfl
  · exact .inr ⟨lines.flatMap (· ++ ['\n']) ++ line, by simp⟩

theorem count_lines {lines : List Text} (h : ∀ line ∈ lines, '\n' ∉ line) :
    (lines.flatMap (· ++ ['\n'])).count '\n' = lines.length := by
  induction lines with
  | nil => rfl
  | cons line lines ih =>
    obtain ⟨hline, hlines⟩ := List.forall_mem_cons.mp h
    rw [List.flatMap_cons, List.count_append, List.count_append, List.count_eq_zero_of_not_mem hline,
      ih hlines]
    simp [Nat.add_comm]

/-- Every line feed ends a line. -/
theorem count_le_length_splitLines (t : Text) : t.count '\n' ≤ (splitLines t).length := by
  fun_induction splitLines t with
  | case1 => simp
  | case2 t ih => simpa using ih
  | case3 c t hpair hbreak ih =>
    rw [List.count_cons, List.length_cons]
    split <;> omega
  | case4 c t hpair hbreak hnil ih =>
    rw [List.count_cons_of_ne (ne_feed (Bool.eq_false_iff.mpr hbreak))]
    rw [hnil] at ih
    exact Nat.le_trans ih (Nat.zero_le _)
  | case5 c t hpair hbreak line lines hlines ih =>
    rw [List.count_cons_of_ne (ne_feed (Bool.eq_false_iff.mpr hbreak))]
    rwa [hlines] at ih

end Text

/-! ## Depths -/

namespace Outline

theorem depthAfter_append (depth : Nat) (t u : Text) :
    depthAfter depth (t ++ u) = depthAfter (depthAfter depth t) u := List.foldl_append

theorem depthAfter_cons (depth : Nat) (c : Char) (t : Text) :
    depthAfter depth (c :: t) = depthAfter (depthAfter depth [c]) t := List.foldl_cons

/-- A text without braces leaves the depth as it is. -/
theorem depthAfter_of_no_braces (h : ∀ c ∈ t, c ≠ '{' ∧ c ≠ '}') (depth : Nat) :
    depthAfter depth t = depth := by
  induction t generalizing depth with
  | nil => rfl
  | cons c t ih =>
    obtain ⟨⟨hopening, hclosing⟩, hrest⟩ := List.forall_mem_cons.mp h
    rw [depthAfter_cons, ih hrest, depthAfter, List.foldl_cons, if_neg hopening, if_neg hclosing,
      List.foldl_nil]

/-- The depth behind a text is the number of braces that are open there. -/
theorem depthAfter_eq_openIn (t : Text) : depthAfter 0 t = openIn t := by
  rw [← length_unclosed]
  induction t using braces_induction with
  | nil => rfl
  | opening t ih =>
    rw [depthAfter_append, ih, unclosed_opening]
    rfl
  | closing t ih =>
    rw [depthAfter_append, ih, unclosed_closing, List.length_tail]
    rfl
  | other t c hopening hclosing ih =>
    rw [depthAfter_append, ih, unclosed_other hopening hclosing]
    exact depthAfter_of_no_braces (by simp [hopening, hclosing]) _

theorem ne_brace_of_isLineBreak (h : isLineBreak c = true) : c ≠ '{' ∧ c ≠ '}' := by
  constructor <;> rintro rfl <;> exact absurd h (by decide)

/-- The characters that end lines are no braces. -/
theorem depthAfter_flatten_splitLines (depth : Nat) (t : Text) :
    depthAfter depth t.splitLines.flatten = depthAfter depth t := by
  fun_induction Text.splitLines t generalizing depth with
  | case1 => rfl
  | case2 t ih => exact ih depth
  | case3 c t hpair hbreak ih =>
    have hc := depthAfter_of_no_braces (List.forall_mem_singleton.mpr (ne_brace_of_isLineBreak hbreak)) depth
    rw [depthAfter_cons, hc]
    exact ih depth
  | case4 c t hpair hbreak hnil ih =>
    have ht : t = [] := by
      by_contra hne
      exact Text.splitLines_ne_nil hne hnil
    rw [ht]
    rfl
  | case5 c t hpair hbreak line lines hlines ih =>
    rw [depthAfter_cons depth c t, ← ih, hlines, List.flatten_cons, List.flatten_cons, List.cons_append,
      depthAfter_cons]

theorem getElem?_depthsFrom {depth n : Nat} {lines : List Text} (h : n < lines.length) :
    (depthsFrom depth lines)[n]? = some (depthAfter depth (lines.take n).flatten) := by
  induction lines generalizing depth n with
  | nil => exact absurd h (Nat.not_lt_zero n)
  | cons line lines ih =>
    cases n with
    | zero => rfl
    | succ n =>
      rw [depthsFrom, List.getElem?_cons_succ, ih (Nat.lt_of_succ_lt_succ h), List.take_succ_cons,
        List.flatten_cons, depthAfter_append]

/-! ## Blocks -/

variable {b : Block}

/-- The brace that opens a block is the first brace on its line. -/
def FirstOnLine (t : Text) (b : Block) : Prop :=
  ∀ c ∈ ((t.splitOn '\n').getD (b.startLine - 1) []).take (b.startColumn - 1), c ≠ '{' ∧ c ≠ '}'

instance (t : Text) (b : Block) : Decidable (FirstOnLine t b) :=
  List.decidableBAll (fun c => c ≠ '{' ∧ c ≠ '}') _

theorem columnAfter_last {last : Text} (h : '\n' ∉ last) (ht : t.AtLine) :
    columnAfter (t ++ last) = last.length + 1 := by
  induction last using List.reverseRecOn with
  | nil =>
    rcases ht with rfl | ⟨line, rfl⟩
    · rfl
    · rw [List.append_nil, columnAfter_feed]
      rfl
  | append_singleton last c ih =>
    rw [List.mem_append, List.mem_singleton, not_or] at h
    rw [← List.append_assoc, columnAfter_char (Ne.symm h.2), ih h.1, List.length_append]
    rfl

/-- What is known of the text before the line of a block whose brace is the first on it: by its line feeds
the block is numbered, and behind it as many braces are open as around the block. -/
structure Precedes (t before : Text) (b : Block) : Prop where
  exists_rest : ∃ rest, rest ≠ [] ∧ t = before ++ rest
  atLine : before.AtLine
  startLine : b.startLine = before.count '\n' + 1
  depth : b.depth = depthAfter 0 before + 1

theorem precedes_beforeLine (hb : b ∈ (scanBraces t).blocks) (hfirst : FirstOnLine t b) :
    Precedes t (t.beforeLine b.startLine) b := by
  rw [blocks_scanBraces] at hb
  obtain ⟨⟨i, j⟩, hpair, rfl⟩ := List.mem_map.mp hb
  have hi : i < t.length := lt_of_getElem? (mem_pairsOf.mp hpair).opening
  obtain ⟨lines, last, hlines, hlast, hplace⟩ := Text.exists_lines (t.take i)
  have ht : lines.flatMap (· ++ ['\n']) ++ (last ++ t.drop i) = t := by
    rw [← List.append_assoc, ← hplace, List.take_append_drop]
  obtain ⟨piece, pieces, hpieces⟩ := Text.splitOn_begins hlast (t.drop i)
  have hsplit : t.splitOn '\n' = lines ++ (last ++ piece) :: pieces := by
    rw [← hpieces, ← Text.splitOn_lines hlines, ht]
  have hline : (blockAt t (i, j)).startLine = lines.length + 1 := by
    show lineAfter (t.take i) = _
    rw [hplace, lineAfter, List.count_append, Text.count_lines hlines,
      List.count_eq_zero_of_not_mem hlast]
  have hcolumn : (blockAt t (i, j)).startColumn = last.length + 1 := by
    show columnAfter (t.take i) = _
    rw [hplace, columnAfter_last hlast (Text.atLine_lines lines)]
  have hbefore : t.beforeLine (blockAt t (i, j)).startLine = lines.flatMap (· ++ ['\n']) := by
    rw [Text.beforeLine, hline, hsplit, Nat.add_sub_cancel, List.take_left]
  -- the line goes on to the brace without another one
  have hquiet : ∀ c ∈ last, c ≠ '{' ∧ c ≠ '}' := by
    intro c hc
    refine hfirst c ?_
    rw [hline, hcolumn, hsplit]
    simpa using hc
  rw [hbefore]
  refine ⟨⟨last ++ t.drop i, ?_, ht.symm⟩, Text.atLine_lines lines, ?_, ?_⟩
  · rw [List.drop_eq_getElem_cons hi]
    exact List.append_ne_nil_of_right_ne_nil last (List.cons_ne_nil _ _)
  · rw [hline, Text.count_lines hlines]
  · show openIn (t.take i) + 1 = _
    rw [hplace, ← depthAfter_eq_openIn, depthAfter_append, depthAfter_of_no_braces hquiet]

/-- The depths tell of the line that a block begins on, going by its number, what the block itself
tells. -/
def Aligned (t : Text) (b : Block) : Prop := (lineDepths t)[b.startLine - 1]? = some (b.depth - 1)

instance (t : Text) (b : Block) : Decidable (Aligned t b) := inferInstanceAs (Decidable (_ = _))

/-- The lines that stand before line number `n` of those that line feeds end, and have that number or a
later one among all lines. -/
def overlap (t : Text) (n : Nat) : List Text := (t.beforeLine n).splitLines.drop (n - 1)

/-- For a block whose brace is the first on its line there is an entry of the depths under the number of
the line, and the one that is meant stands behind it by as many as overlap. The two are the same exactly
if the braces on the lines that overlap leave the depth as it is, and so if no line before the block ends
otherwise than with a line feed. -/
theorem aligned_iff (hb : b ∈ (scanBraces t).blocks) (hfirst : FirstOnLine t b) :
    ∃ d, (lineDepths t)[b.startLine - 1]? = some d
      ∧ (lineDepths t)[b.startLine - 1 + (overlap t b.startLine).length]? = some (b.depth - 1)
      ∧ (Aligned t b ↔ depthAfter d (overlap t b.startLine).flatten = d)
      ∧ ((t.beforeLine b.startLine).OnlyFeeds → Aligned t b) := by
  obtain ⟨⟨rest, hrest, ht⟩, hline, hstart, hdepth⟩ := precedes_beforeLine hb hfirst
  have hnumber : b.startLine - 1 = (t.beforeLine b.startLine).count '\n' := by omega
  rw [Aligned, overlap, hnumber, hdepth, Nat.add_sub_cancel]
  generalize t.beforeLine b.startLine = before at ht hline ⊢
  have hcount := Text.count_le_length_splitLines before
  have hpos := List.length_pos_of_ne_nil (Text.splitLines_ne_nil hrest)
  have hentry : ∀ n ≤ before.splitLines.length,
      (lineDepths t)[n]? = some (depthAfter 0 (before.splitLines.take n).flatten) := by
    intro n hn
    have hlt : n < (before.splitLines ++ Text.splitLines rest).length := by
      rw [List.length_append]
      omega
    rw [lineDepths, ht, Text.splitLines_append hline, getElem?_depthsFrom hlt,
      List.take_append_of_le_length hn]
  have hmeant : (lineDepths t)[before.splitLines.length]? = some (depthAfter 0 before) := by
    rw [hentry _ (Nat.le_refl _), List.take_length, depthAfter_flatten_splitLines]
  have hoverlap : depthAfter (depthAfter 0 (before.splitLines.take (before.count '\n')).flatten)
      (before.splitLines.drop (before.count '\n')).flatten = depthAfter 0 before := by
    rw [← depthAfter_append, ← List.flatten_append, List.take_append_drop, depthAfter_flatten_splitLines]
  have hlast : before.count '\n' + (before.splitLines.drop (before.count '\n')).length
      = before.splitLines.length := by
    rw [List.length_drop]
    omega
  refine ⟨_, hentry _ hcount, by rw [hlast, hmeant], ?_, fun hfeeds => ?_⟩
  · rw [hentry _ hcount, hoverlap, Option.some.injEq, eq_comm]
  · rw [← Text.length_splitLines hfeeds hline, hmeant]

/-- A text with a line that only a form feed ends, and has no braces. -/
def quietFormFeed : Text := "\x7b\n\x0c\r\n\x7b\x7d\n\x7d".toList

/-- The lines overlap by one, and the depths tell of the inner block what it tells itself. -/
theorem aligned_quietFormFeed : (⟨3, 1, 3, 2, 2⟩ : Block) ∈ (scanBraces quietFormFeed).blocks
    ∧ FirstOnLine quietFormFeed ⟨3, 1, 3, 2, 2⟩ ∧ (overlap quietFormFeed 3).length = 1
    ∧ Aligned quietFormFeed ⟨3, 1, 3, 2, 2⟩ := by
  have hblock : (⟨3, 1, 3, 2, 2⟩ : Block) ∈ (scanBraces quietFormFeed).blocks := by decide
  have hfirst : FirstOnLine quietFormFeed ⟨3, 1, 3, 2, 2⟩ := by decide
  obtain ⟨d, -, -, hiff, -⟩ := aligned_iff hblock hfirst
  have hquiet : (overlap quietFormFeed 3).flatten = [] := by decide
  refine ⟨hblock, hfirst, by decide, hiff.mpr ?_⟩
  rw [hquiet]
  rfl

/-- Behind a form feed the entry under the number of a line is that of the line before. -/
theorem not_aligned_after_form_feed :
    (⟨2, 1, 2, 2, 2⟩ : Block) ∈ (scanBraces "\x0c\x7b\n\x7b\x7d\n\x7d".toList).blocks
      ∧ FirstOnLine "\x0c\x7b\n\x7b\x7d\n\x7d".toList ⟨2, 1, 2, 2, 2⟩
      ∧ ¬Aligned "\x0c\x7b\n\x7b\x7d\n\x7d".toList ⟨2, 1, 2, 2, 2⟩ := by
  decide

end Outline

end Provenance
