/-
Breaks of a text file.

A text can be cut at its breaks in one way only, if a carriage return and the line feed after it are taken
for one break wherever they stand next to each other. `unifyBreaks` puts a line feed in the place of each
break and leaves the lines as they are. The same comes of replacing one pair of characters after the other
and then the carriage returns that are left; and once it is done there is nothing more to do, so a text whose
breaks have been unified by a reader already may be given to it as well.
-/
import Provenance.Proofs.Text.Blocks

set_option autoImplicit false

namespace Provenance.Text

variable {c : Char} {t u last : Text}

/-! ## Replacing -/

/-- Replaces what begins as `old` from left to right, where the first `skip` characters belong to what has
been replaced last. -/
def replaceFrom (old new : Text) : Nat → Text → Text
  | _, [] => []
  | skip + 1, _ :: rest => replaceFrom old new skip rest
  | 0, c :: rest =>
    if startsWith (c :: rest) old then new ++ replaceFrom old new (old.length - 1) rest
    else c :: replaceFrom old new 0 rest

/-- The text with every occurrence of `old` replaced by `new`; occurrences that overlap are taken from left
to right. -/
def replaceAll (old new t : Text) : Text := replaceFrom old new 0 t

theorem replaceAll_char (old new : Char) (t : Text) :
    replaceAll [old] [new] t = t.replaceChar old new := by
  rw [replaceAll]
  induction t with
  | nil => rfl
  | cons c t ih =>
    have hstart : startsWith (c :: t) [old] = (old == c) := by simp [startsWith, List.isPrefixOf]
    rw [replaceFrom, hstart, replaceChar, List.map_cons, ← replaceChar, ← ih]
    by_cases hc : c = old
    · rw [if_pos (beq_iff_eq.mpr hc.symm), if_pos hc]
      rfl
    · rw [if_neg (by simpa using Ne.symm hc), if_neg hc]

/-- The text with a line feed for each carriage return that a line feed follows. -/
def joinPairs (t : Text) : Text := replaceAll ['\r', '\n'] ['\n'] t

theorem joinPairs_pair (t : Text) : joinPairs ('\r' :: '\n' :: t) = '\n' :: joinPairs t := rfl

theorem joinPairs_cons (h : c = '\r' → ∀ u, t ≠ '\n' :: u) : joinPairs (c :: t) = c :: joinPairs t := by
  have hstart : startsWith (c :: t) ['\r', '\n'] = false := by
    rw [← Bool.not_eq_true, startsWith, List.isPrefixOf_iff_prefix, List.cons_prefix_cons]
    rintro ⟨rfl, u, rfl⟩
    exact h rfl u rfl
  rw [joinPairs, replaceAll, replaceFrom, hstart]
  rfl

/-- Breaks are unified by two replacements, of the pairs first and of single carriage returns after
them. -/
theorem unifyBreaks_eq_replaceAll (t : Text) :
    t.unifyBreaks = replaceAll ['\r'] ['\n'] (replaceAll ['\r', '\n'] ['\n'] t) := by
  rw [replaceAll_char, ← joinPairs]
  fun_induction unifyBreaks t with
  | case1 => rfl
  | case2 rest ih =>
    rw [joinPairs_pair, ih]
    rfl
  | case3 c rest hpair ih =>
    rw [joinPairs_cons fun hc u hu => hpair u hc hu, ih]
    rfl

/-! ## Unified breaks -/

theorem return_not_mem_unifyBreaks (t : Text) : '\r' ∉ t.unifyBreaks := by
  fun_induction unifyBreaks t with
  | case1 => exact List.not_mem_nil
  | case2 rest ih => exact List.not_mem_cons_of_ne_of_not_mem (by decide) ih
  | case3 c rest hpair ih =>
    refine List.not_mem_cons_of_ne_of_not_mem ?_ ih
    split
    · decide
    · rename_i hc
      exact Ne.symm hc

theorem unifyBreaks_unifyBreaks (t : Text) : t.unifyBreaks.unifyBreaks = t.unifyBreaks :=
  unifyBreaks_of_not_mem (return_not_mem_unifyBreaks t)

/-! ## Cutting at breaks -/

/-- The ways in which lines end in text files. -/
inductive Break where
  | crlf
  | cr
  | lf
  deriving DecidableEq, Repr

/-- The characters of a break. -/
def Break.text : Break → Text
  | .crlf => ['\r', '\n']
  | .cr => ['\r']
  | .lf => ['\n']

/-- The text of lines with their breaks, and of a last line without one. -/
def glue : List (Text × Break) → Text → Text
  | [], last => last
  | (line, b) :: lines, last => line ++ b.text ++ glue lines last

/-- No character of a break is in the line. -/
def IsLine (line : Text) : Prop := '\r' ∉ line ∧ '\n' ∉ line

/-- The lines of a text that is cut at its breaks: no break is in a line, and none goes on behind a carriage
return that is one by itself. -/
def IsCut : List (Text × Break) → Text → Prop
  | [], last => IsLine last
  | (line, b) :: lines, last =>
    IsLine line ∧ (b = .cr → ∀ u, glue lines last ≠ '\n' :: u) ∧ IsCut lines last

variable {lines : List (Text × Break)}

/-- Each break is turned into a line feed, and nothing else is changed. -/
theorem unifyBreaks_glue (h : IsCut lines last) :
    unifyBreaks (glue lines last) = glue (lines.map fun l => (l.1, .lf)) last := by
  induction lines with
  | nil => exact unifyBreaks_of_not_mem h.1
  | cons l lines ih =>
    obtain ⟨line, b⟩ := l
    obtain ⟨hline, hcr, hrest⟩ := h
    have hbreak : unifyBreaks (b.text ++ glue lines last) = '\n' :: unifyBreaks (glue lines last) := by
      cases b with
      | crlf => rfl
      | cr =>
        show unifyBreaks ('\r' :: glue lines last) = _
        rw [unifyBreaks]
        · rfl
        · exact fun u _ hu => hcr rfl u hu
      | lf =>
        show unifyBreaks ('\n' :: glue lines last) = _
        rw [unifyBreaks]
        · rfl
        · exact fun u hc => absurd hc (by decide)
    have hends : ∀ w, line = w ++ ['\r'] → ∀ w', b.text ++ glue lines last ≠ '\n' :: w' := by
      rintro w rfl
      exact absurd (List.mem_append_right w List.mem_cons_self) hline.1
    rw [glue, List.append_assoc, unifyBreaks_append hends, unifyBreaks_of_not_mem hline.1, hbreak, ih hrest,
      List.map_cons, glue, List.append_assoc]
    rfl

/-- Another character goes on the first line. -/
theorem exists_cut_cons (hr : c ≠ '\r') (hn : c ≠ '\n') (h : IsCut lines last) :
    ∃ lines' last', IsCut lines' last' ∧ glue lines' last' = c :: glue lines last := by
  have hline : ∀ {line : Text}, IsLine line → IsLine (c :: line) := fun hline =>
    ⟨List.not_mem_cons_of_ne_of_not_mem (Ne.symm hr) hline.1,
      List.not_mem_cons_of_ne_of_not_mem (Ne.symm hn) hline.2⟩
  cases lines with
  | nil => exact ⟨[], c :: last, hline h, rfl⟩
  | cons l lines =>
    obtain ⟨hfirst, hcr, hrest⟩ := h
    exact ⟨(c :: l.1, l.2) :: lines, last, ⟨hline hfirst, hcr, hrest⟩, rfl⟩

/-- Every text can be cut at its breaks. -/
theorem exists_cut (t : Text) : ∃ lines last, IsCut lines last ∧ glue lines last = t := by
  have hempty : IsLine [] := ⟨List.not_mem_nil, List.not_mem_nil⟩
  fun_induction unifyBreaks t with
  | case1 => exact ⟨[], [], hempty, rfl⟩
  | case2 rest ih =>
    obtain ⟨lines, last, hcut, rfl⟩ := ih
    exact ⟨([], .crlf) :: lines, last, ⟨hempty, by simp, hcut⟩, rfl⟩
  | case3 c rest hpair ih =>
    obtain ⟨lines, last, hcut, rfl⟩ := ih
    by_cases hr : c = '\r'
    · subst hr
      exact ⟨([], .cr) :: lines, last, ⟨hempty, fun _ u hu => hpair u rfl hu, hcut⟩, rfl⟩
    by_cases hn : c = '\n'
    · subst hn
      exact ⟨([], .lf) :: lines, last, ⟨hempty, by simp, hcut⟩, rfl⟩
    · exact exists_cut_cons hr hn hcut

/-- There are as many line feeds as there are breaks. -/
theorem count_glue_feeds (h : IsCut lines last) :
    (glue (lines.map fun l => (l.1, .lf)) last).count '\n' = lines.length := by
  induction lines with
  | nil => exact List.count_eq_zero_of_not_mem h.2
  | cons l lines ih =>
    obtain ⟨hline, -, hrest⟩ := h
    rw [List.map_cons, glue, List.count_append, List.count_append, ih hrest,
      List.count_eq_zero_of_not_mem hline.2, List.length_cons]
    simp [Break.text, Nat.add_comm]

/-- One text is the other with its breaks unified: it comes of the two replacements, is unified already and
has no carriage return, and each break of the other text, taken as long as it goes, is one line feed in it. -/
structure UnifiedFrom (t u : Text) : Prop where
  replaced : t = replaceAll ['\r'] ['\n'] (replaceAll ['\r', '\n'] ['\n'] u)
  again : t.unifyBreaks = t
  noReturn : '\r' ∉ t
  cut : ∃ lines last, IsCut lines last ∧ u = glue lines last
    ∧ t = glue (lines.map fun l => (l.1, .lf)) last ∧ t.count '\n' = lines.length

theorem unifiedFrom (u : Text) : UnifiedFrom u.unifyBreaks u := by
  obtain ⟨lines, last, hcut, rfl⟩ := exists_cut u
  refine ⟨unifyBreaks_eq_replaceAll _, unifyBreaks_unifyBreaks _, return_not_mem_unifyBreaks _,
    lines, last, hcut, rfl, unifyBreaks_glue hcut, ?_⟩
  rw [unifyBreaks_glue hcut, count_glue_feeds hcut]

end Provenance.Text
