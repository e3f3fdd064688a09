/-
Line numbers of declarations.

A declaration begins on the line that its keyword stands on, and ends on that line or on the line of a
closing brace. The closing brace is numbered by the line feeds before it; the keyword by all characters that
end lines for `splitLines`, and there are more of those. A form feed or a line separator in the code before a
declaration is counted with the breaks of the file, and the line that the declaration is said to begin on
comes too late by one. So the numbers are those of the lines of the file exactly if no such character stands
before the keyword, apart from those in comments and strings.
-/
import Provenance.Proofs.Outline.Depths
import Provenance.Proofs.Outline.Places

set_option autoImplicit false

namespace Provenance

variable {t u m line : Text} {c : Char} {k n start : Nat}

/-! ## Characters that end lines -/

namespace Text

/-- The number of characters that end lines and are no line feeds. -/
def otherBreaks (t : Text) : Nat := t.countP fun c => isLineBreak c && c != '\n'

theorem countP_isLineBreak (t : Text) : t.countP isLineBreak = t.count '\n' + t.otherBreaks := by
  induction t with
  | nil => rfl
  | cons c t ih =>
    have hfeed : isLineBreak '\n' = true := by decide
    rw [otherBreaks, List.countP_cons, List.countP_cons, List.count_cons, ih, otherBreaks]
    by_cases hc : c = '\n'
    · simp [hc, hfeed]
      omega
    · cases hbreak : isLineBreak c <;> simp [hc]
      omega

theorem onlyFeeds_iff (t : Text) : t.OnlyFeeds ↔ t.otherBreaks = 0 := by
  rw [otherBreaks, List.countP_eq_zero]
  refine forall₂_congr fun c _ => ?_
  rw [Bool.and_eq_true, not_and, bne_iff_ne, not_not]

/-- A line has no character that ends lines, and its number is how many of those stand before it. -/
theorem exists_of_getElem?_linesFrom (hr : '\r' ∉ t) (h : (linesFrom k t)[n]? = some (start, line)) :
    ∃ before later, t = before ++ line ++ later ∧ start = k + before.length
      ∧ before.countP isLineBreak = n ∧ line.countP isLineBreak = 0 := by
  fun_induction linesFrom k t generalizing n start line with
  | case1 => exact absurd h (by simp)
  | case2 k t ih => exact absurd List.mem_cons_self hr
  | case3 k c t hpair hbreak ih =>
    rw [List.mem_cons, not_or] at hr
    cases n with
    | zero =>
      obtain ⟨rfl, rfl⟩ := Prod.mk.inj (Option.some.inj h)
      exact ⟨[], _, rfl, rfl, rfl, rfl⟩
    | succ n =>
      obtain ⟨before, later, rfl, rfl, hcount, hline⟩ := ih hr.2 h
      exact ⟨c :: before, later, rfl, by simp only [List.length_cons]; omega,
        by rw [List.countP_cons_of_pos hbreak, hcount], hline⟩
  | case4 k c t hpair hbreak hnil ih =>
    cases n with
    | zero =>
      obtain ⟨rfl, rfl⟩ := Prod.mk.inj (Option.some.inj h)
      exact ⟨[], t, rfl, rfl, rfl, by rw [List.countP_cons_of_neg hbreak, List.countP_nil]⟩
    | succ n => exact absurd h (by simp)
  | case5 k c t hpair hbreak first line' lines hlines ih =>
    rw [List.mem_cons, not_or] at hr
    rw [hlines] at ih
    cases n with
    | zero =>
      obtain ⟨rfl, rfl⟩ := Prod.mk.inj (Option.some.inj h)
      -- the character goes before the line that begins behind it
      obtain rfl := start_of_linesFrom hlines
      have hfirst : ((k + 1, line') :: lines)[0]? = some (k + 1, line') := rfl
      obtain ⟨before, later, rfl, hbefore, -, hline⟩ := ih hr.2 hfirst
      obtain rfl : before = [] := List.eq_nil_of_length_eq_zero (by omega)
      exact ⟨[], later, rfl, rfl, rfl, by rw [List.countP_cons_of_neg hbreak, hline]⟩
    | succ n =>
      have hnext : ((first, line') :: lines)[n + 1]? = some (start, line) := h
      obtain ⟨before, later, rfl, rfl, hcount, hline⟩ := ih hr.2 hnext
      exact ⟨c :: before, later, rfl, by simp only [List.length_cons]; omega,
        by rw [List.countP_cons_of_neg hbreak, hcount], hline⟩

end Text

namespace Outline

/-- What is left of a line stands behind as many ends of lines as the line has for a number. -/
theorem countP_take_placeOf (hr : '\r' ∉ t) (h : (Text.linesFrom 0 t)[n]? = some (start, line))
    (hu : u <:+ line) : (t.take (placeOf start line u)).countP isLineBreak = n := by
  obtain ⟨before, later, rfl, rfl, hcount, hline⟩ := Text.exists_of_getElem?_linesFrom hr h
  obtain ⟨w, rfl⟩ := hu
  have hplace : placeOf (0 + before.length) (w ++ u) u = (before ++ w).length := by
    rw [placeOf, List.length_append, List.length_append]
    omega
  rw [List.countP_append] at hline
  rw [hplace, List.append_assoc, List.append_assoc, ← List.append_assoc before, List.take_left,
    List.countP_append, hcount]
  omega

/-- Texts that have their line feeds in the same places have as many before any place. -/
theorem count_take_of_feeds (h : m.feeds = t.feeds) (k : Nat) :
    (m.take k).count '\n' = (t.take k).count '\n' := by
  have hcount : ∀ u : Text, u.count '\n' = u.feeds.count true := fun u => by
    rw [Text.feeds, List.count, List.count, List.countP_map]
    refine List.countP_congr fun c _ => ?_
    simp
  have htake : ∀ u : Text, Text.feeds (u.take k) = u.feeds.take k := fun u => List.map_take
  rw [hcount, hcount, htake, htake, h]

namespace Kotlin

variable {d : Declaration} {package : Option Text} {scan : BraceScan}

/-- A declaration begins on the line with the number of ends of lines before its keyword. -/
theorem startLine_eq (hr : '\r' ∉ m) (hd : d ∈ declarationsOf m) (hk : keywordPlace? m d = some k) :
    d.startLine = 1 + (m.take k).count '\n' + Text.otherBreaks (m.take k) := by
  obtain ⟨n, _, _, -, -, hstart, -⟩ := exists_header_of_mem_declarationsFrom hd
  have hnumber : d.startLine.toNat - 1 = n := by omega
  obtain ⟨⟨start, line⟩, hline, hplace⟩ := Option.bind_eq_some_iff.mp hk
  obtain ⟨rest, hrest, rfl⟩ := Option.map_eq_some_iff.mp hplace
  rw [hnumber] at hline
  -- the keyword stands in a line, and no character in a line ends it
  have hcount := countP_take_placeOf hr hline (suffix_of_fromKeyword? hrest)
  rw [Text.countP_isLineBreak] at hcount
  dsimp only
  omega

/-- A body that is found ends with a closing brace. -/
theorem exists_closing_of_bodyEnd? {budget depth line offset last : Nat} {part : Text}
    {following : List Text}
    (h : bodyEnd? (scanBraces t) budget depth line offset part following = some last) :
    ∃ j, t[j]? = some '}' ∧ last = lineAfter (t.take j) := by
  obtain ⟨opening, column, -, hend⟩ := exists_endOf?_of_bodyEnd? h
  obtain ⟨b, hb, rfl⟩ := Option.map_eq_some_iff.mp hend
  have hmem := List.mem_of_find?_eq_some hb
  rw [blocks_scanBraces] at hmem
  obtain ⟨⟨i, j⟩, hpair, rfl⟩ := List.mem_map.mp hmem
  exact ⟨j, (mem_pairsOf.mp hpair).closing, rfl⟩

/-- A declaration ends on the line that it begins on, or on that of a closing brace. -/
theorem endLine_of_mem_declarationsFrom {line : Nat} {opened : List OpenBody} {lines : List Text}
    {depths : List Nat} (hd : d ∈ declarationsFrom package (scanBraces t) line opened lines depths) :
    d.endLine = d.startLine ∨ ∃ j, t[j]? = some '}' ∧ d.endLine = 1 + (t.take j).count '\n' := by
  obtain ⟨n, text, header, around, later, depth, -, -, rfl⟩ := exists_declarationAt_of_mem hd
  rcases hend : bodyEndAt? (scanBraces t) (line + n) text header later with _ | last
  · left
    simp [declarationAt, hend]
  · obtain ⟨j, hj, rfl⟩ := exists_closing_of_bodyEnd? hend
    right
    refine ⟨j, hj, ?_⟩
    simp [declarationAt, hend, lineAfter, Int.add_comm]

/-! ## Lines of the source -/

/-- The lines that are told of a declaration are lines of the text, counted by its line feeds: it begins on
that of its keyword, and ends on the same or on that of a closing brace. -/
def Numbered (t : Text) (d : Declaration) : Prop :=
  ∃ k, keywordPlace? (mask .kotlin t) d = some k ∧ d.startLine = 1 + (t.take k).count '\n'
    ∧ (d.endLine = d.startLine ∨ ∃ j, t[j]? = some '}' ∧ d.endLine = 1 + (t.take j).count '\n')

/-- A closing brace of the mask is one of the source. -/
theorem closing_of_mask {rules : MaskRules} {j : Nat} (h : (mask rules t)[j]? = some '}') :
    t[j]? = some '}' := by
  have hword : ∀ u : Text, ['}'] <+: u.drop j ↔ u[j]? = some '}' := fun u => by
    rw [← List.head?_drop]
    rcases u.drop j with _ | ⟨c, v⟩
    · simp
    · simp [List.cons_prefix_cons, eq_comm]
  exact (hword t).mp (prefix_drop_of_mask (by decide) ((hword _).mpr h))

/-- A declaration of a text without carriage returns ends on a line of the text, or where it begins. It begins
on the line of its keyword, if the other characters that end lines, as far as they are not masked, are left out
of the count; so the lines are those of the text exactly if there are none before the keyword. -/
theorem numbered_iff (hr : '\r' ∉ t) (hd : d ∈ declarationsOf (mask .kotlin t)) :
    ∃ k, keywordPlace? (mask .kotlin t) d = some k
      ∧ d.startLine = 1 + (t.take k).count '\n' + Text.otherBreaks ((mask .kotlin t).take k)
      ∧ (d.endLine = d.startLine ∨ ∃ j, t[j]? = some '}' ∧ d.endLine = 1 + (t.take j).count '\n')
      ∧ (Numbered t d ↔ Text.OnlyFeeds ((mask .kotlin t).take k)) := by
  obtain ⟨k, _, hk, -, -⟩ := keywordPlace?_of_mem hd
  have hr' : '\r' ∉ mask .kotlin t := fun hmem => (mem_maskFrom hmem).elim hr (by decide)
  have hcount : ∀ j, ((mask .kotlin t).take j).count '\n' = (t.take j).count '\n' :=
    count_take_of_feeds (feeds_mask byLine_kotlin t)
  have hstart := startLine_eq hr' hd hk
  rw [hcount] at hstart
  have hend : d.endLine = d.startLine
      ∨ ∃ j, t[j]? = some '}' ∧ d.endLine = 1 + (t.take j).count '\n' := by
    refine (endLine_of_mem_declarationsFrom hd).imp_right fun ⟨j, hj, hline⟩ =>
      ⟨j, closing_of_mask hj, ?_⟩
    rw [hline, hcount]
  refine ⟨k, hk, hstart, hend, ?_⟩
  rw [Text.onlyFeeds_iff]
  constructor
  · rintro ⟨k', hk', hline, -⟩
    obtain rfl : k' = k := Option.some.inj (hk'.symm.trans hk)
    omega
  · intro hnone
    exact ⟨k, hk, by rw [hstart, hnone]; simp, hend⟩

end Kotlin

/-- What a unit declares is declared by the mask of its text. -/
theorem mem_declarationsOf_of_parseUnit {path : Text} {unit : SourceUnit} {d : Declaration}
    (h : parseUnit path t = .ok unit) (hd : d ∈ unit.declarations) :
    d ∈ Kotlin.declarationsOf (mask .kotlin t) := by
  unfold parseUnit at h
  split at h
  · rename_i language hselect
    rcases kotlin_or_plain hselect with rfl | rfl
    · have hkotlin : Kotlin.parse path t = .ok unit := h
      rw [Kotlin.parse_eq] at hkotlin
      obtain rfl := Except.ok.inj hkotlin
      exact hd
    · obtain rfl := Except.ok.inj h
      exact absurd hd List.not_mem_nil
  · obtain rfl := Except.ok.inj h
    exact absurd hd List.not_mem_nil

end Outline

end Provenance
