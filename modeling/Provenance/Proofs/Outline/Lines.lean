/-
Lines of a masked text.

A text whose only line breaks are line feeds is masked line by line. No marker goes over a line
feed, so at the end of a line nothing is left of the text before it but the region that the next
line begins in. That makes it possible to take a text apart where a line begins: the masks of the
two parts do not depend on each other but for that region, and another line feed between them is
another empty line in the mask and changes nothing else.
-/
import Mathlib.Data.List.Find
import Provenance.Outline.Mask
import Provenance.Text.Lines

set_option autoImplicit false

namespace Provenance

/-! ## Lines -/

namespace Text

variable {c : Char} {t u : Text}

/-- The text has no line breaks but line feeds. -/
def OnlyFeeds (t : Text) : Prop := ∀ c ∈ t, isLineBreak c = true → c = '\n'

instance (t : Text) : Decidable (OnlyFeeds t) :=
  List.decidableBAll (fun c => isLineBreak c = true → c = '\n') t

/-- A line begins behind the text. -/
def AtLine (t : Text) : Prop := t = [] ∨ ∃ line, t = line ++ ['\n']

/-- Which characters of the text end a line. -/
def feeds (t : Text) : List Bool := t.map (· == '\n')

/-- The first character ends a line or is none of those that do. -/
theorem OnlyFeeds.of_cons (h : OnlyFeeds (c :: t)) : OnlyFeeds t ∧ (c = '\n' ∨ isLineBreak c = false) := by
  refine ⟨fun a ha => h a (List.mem_cons_of_mem c ha), ?_⟩
  cases hc : isLineBreak c with
  | true => exact .inl (h c List.mem_cons_self hc)
  | false => exact .inr rfl

theorem ne_feed (h : isLineBreak c = false) : c ≠ '\n' := by
  rintro rfl
  exact absurd h (by decide)

theorem atLine_concat (t : Text) (c : Char) : AtLine (t ++ [c]) ↔ c = '\n' := by
  constructor
  · rintro (h | ⟨line, h⟩)
    · exact absurd h (List.append_ne_nil_of_right_ne_nil t (List.cons_ne_nil c []))
    · exact (List.cons.inj (List.append_inj_right' h rfl)).1
  · rintro rfl
    exact .inr ⟨t, rfl⟩

theorem atLine_iff (t : Text) : AtLine t ↔ t.feeds.getLast? ≠ some false := by
  rcases List.eq_nil_or_concat t with rfl | ⟨u, c, rfl⟩
  · exact iff_of_true (.inl rfl) (by simp [feeds])
  · rw [List.concat_eq_append, atLine_concat, feeds, List.map_append, List.map_singleton,
      List.getLast?_concat]
    simp

theorem AtLine.of_cons (h : AtLine (c :: t)) : AtLine t ∧ (t = [] → c = '\n') := by
  rcases h with h | ⟨line, h⟩
  · exact absurd h (List.cons_ne_nil c t)
  cases line with
  | nil =>
    obtain ⟨rfl, rfl⟩ := List.cons.inj h
    exact ⟨.inl rfl, fun _ => rfl⟩
  | cons d line =>
    obtain ⟨-, rfl⟩ := List.cons.inj h
    exact ⟨.inr ⟨line, rfl⟩, fun hnil => absurd hnil (by simp)⟩

theorem AtLine.count_pos (h : AtLine t) (hne : t ≠ []) : 0 < t.count '\n' := by
  rcases h with h | ⟨line, rfl⟩
  · exact absurd h hne
  · rw [List.count_pos_iff]
    exact List.mem_append_right _ (List.mem_singleton_self _)

theorem splitLines_feed (t : Text) : splitLines ('\n' :: t) = [] :: splitLines t := rfl

theorem splitLines_ne_nil (h : t ≠ []) : splitLines t ≠ [] := by
  unfold splitLines
  split
  · exact absurd rfl h
  · exact List.cons_ne_nil _ _
  · split
    · exact List.cons_ne_nil _ _
    · split <;> exact List.cons_ne_nil _ _

/-- A character that ends no line belongs to the first line of what comes after it. -/
theorem splitLines_cons (h : isLineBreak c = false) (t : Text) :
    splitLines (c :: t) = match splitLines t with
      | [] => [[c]]
      | line :: lines => (c :: line) :: lines := by
  rw [splitLines.eq_def]
  split
  · rename_i heq
    exact absurd heq (List.cons_ne_nil c t)
  · rename_i rest heq
    rw [(List.cons.inj heq).1] at h
    exact absurd h (by decide)
  · rename_i d rest _ heq
    obtain ⟨rfl, rfl⟩ := List.cons.inj heq
    exact if_neg (Bool.eq_false_iff.mp h)

theorem splitLines_char {line : Text} {lines : List Text} (h : isLineBreak c = false)
    (hlines : splitLines t = line :: lines) : splitLines (c :: t) = (c :: line) :: lines := by
  rw [splitLines_cons h, hlines]

theorem length_splitLines_char (h : isLineBreak c = false) (t : Text) :
    (splitLines (c :: t)).length = max 1 (splitLines t).length := by
  rw [splitLines_cons h]
  rcases splitLines t with _ | ⟨line, lines⟩
  · rfl
  · simp only [List.length_cons]
    omega

/-- A character that ends a line ends one of its own, unless it is a carriage return before a line
feed. -/
theorem splitLines_break (h : isLineBreak c = true) (hpair : c = '\r' → ∀ u, t ≠ '\n' :: u) :
    splitLines (c :: t) = [] :: splitLines t := by
  rw [splitLines.eq_def]
  split
  · rename_i heq
    exact absurd heq (List.cons_ne_nil c t)
  · rename_i rest heq
    obtain ⟨hc, ht⟩ := List.cons.inj heq
    exact absurd ht (hpair hc rest)
  · rename_i d rest _ heq
    obtain ⟨rfl, rfl⟩ := List.cons.inj heq
    exact if_pos h

/-- The lines of a text that ends where a line begins are apart from those behind it. The induction goes
through the text as `splitLines` does. -/
theorem splitLines_append (h : AtLine t) (u : Text) :
    splitLines (t ++ u) = splitLines t ++ splitLines u := by
  fun_induction splitLines t with
  | case1 => rfl
  | case2 t ih => exact congrArg _ (ih h.of_cons.1.of_cons.1)
  | case3 c t hpair hbreak ih =>
    rw [List.cons_append, List.cons_append, ← ih h.of_cons.1]
    refine splitLines_break hbreak fun hc v heq => ?_
    cases t with
    | nil =>
      -- a text that ends where a line begins does not end with a carriage return
      exact absurd (hc.symm.trans (h.of_cons.2 rfl)) (by decide)
    | cons d t =>
      obtain ⟨rfl, -⟩ := List.cons.inj heq
      exact hpair t hc rfl
  | case4 c t hpair hbreak hnil ih =>
    -- nothing comes behind the last character of the text, so it is a line feed
    have ht : t = [] := by
      by_contra hne
      exact splitLines_ne_nil hne hnil
    exact absurd (h.of_cons.2 ht) (ne_feed (Bool.eq_false_iff.mpr hbreak))
  | case5 c t hpair hbreak line lines hlines ih =>
    have hrest := ih h.of_cons.1
    rw [hlines, List.cons_append] at hrest
    exact splitLines_char (Bool.eq_false_iff.mpr hbreak) hrest

/-- If it has no other breaks, its lines are as many as its line feeds. -/
theorem length_splitLines (ht : OnlyFeeds t) (h : AtLine t) : (splitLines t).length = t.count '\n' := by
  induction t with
  | nil => rfl
  | cons c t ih =>
    obtain ⟨hfeeds, hc⟩ := ht.of_cons
    obtain ⟨hline, hlast⟩ := h.of_cons
    have hrest := ih hfeeds hline
    rcases hc with rfl | hc
    · rw [splitLines_feed, List.length_cons, hrest, List.count_cons_self]
    · have hpos := hline.count_pos fun hnil => ne_feed hc (hlast hnil)
      rw [length_splitLines_char hc, hrest, List.count_cons_of_ne (ne_feed hc)]
      omega

/-- Texts that have their line feeds in the same places have as many lines. -/
theorem length_splitLines_congr (ht : OnlyFeeds t) (hu : OnlyFeeds u) (h : t.feeds = u.feeds) :
    (splitLines t).length = (splitLines u).length := by
  induction t generalizing u with
  | nil =>
    obtain rfl : u = [] := List.map_eq_nil_iff.mp h.symm
    rfl
  | cons c t ih =>
    cases u with
    | nil => exact absurd h (by simp [feeds])
    | cons d u =>
      obtain ⟨hfeed, hfeeds⟩ : (c == '\n') = (d == '\n') ∧ feeds t = feeds u :=
        List.cons.inj h
      have hsame : c = '\n' ↔ d = '\n' := by
        rw [← beq_iff_eq, hfeed, beq_iff_eq]
      obtain ⟨ht, hc⟩ := ht.of_cons
      obtain ⟨hu, hd⟩ := hu.of_cons
      have hrest := ih ht hu hfeeds
      rcases hc with hc | hc
      · rw [hc, hsame.mp hc, splitLines_feed, splitLines_feed, List.length_cons, List.length_cons, hrest]
      · have hd : isLineBreak d = false := hd.resolve_left (mt hsame.mpr (ne_feed hc))
        rw [length_splitLines_char hc, length_splitLines_char hd, hrest]

/-- A line feed at the end of the last line adds no line. -/
theorem splitLines_end (ht : OnlyFeeds t) (h : ¬AtLine t) : splitLines (t ++ ['\n']) = splitLines t := by
  induction t with
  | nil => exact absurd (.inl rfl) h
  | cons c t ih =>
    obtain ⟨hfeeds, hc⟩ := ht.of_cons
    rw [List.cons_append]
    by_cases hnil : t = []
    · have hne : c ≠ '\n' := fun hc => h (.inr ⟨[], by rw [hc, hnil]; rfl⟩)
      have hchar := hc.resolve_left hne
      rw [hnil, List.nil_append, splitLines_char hchar (splitLines_feed []), splitLines_cons hchar]
      rfl
    · have hline : ¬AtLine t := by
        rintro (hempty | ⟨line, rfl⟩)
        · exact hnil hempty
        · exact h (.inr ⟨c :: line, rfl⟩)
      have hrest := ih hfeeds hline
      rcases hc with rfl | hc
      · rw [splitLines_feed, splitLines_feed, hrest]
      · obtain ⟨line, lines, hlines⟩ := List.exists_cons_of_ne_nil (splitLines_ne_nil hnil)
        rw [splitLines_char hc hlines, splitLines_char hc (hrest.trans hlines)]

end Text

/-! ## Masks -/

namespace Outline

variable {r : MaskRules} {region : Region} {t m : Text} {c : Char} {skip run : Nat}

/-- A marker that lies on one line. -/
def OnOneLine (m : Text) : Prop := m ≠ [] ∧ '\n' ∉ m

instance (m : Text) : Decidable (OnOneLine m) := inferInstanceAs (Decidable (_ ∧ _))

/-- All markers lie on one line, and so does what escapes them. -/
structure MaskRules.ByLine (r : MaskRules) : Prop where
  lineComments : ∀ m ∈ r.lineComments, OnOneLine m
  blockComments : ∀ p ∈ r.blockComments, OnOneLine p.1 ∧ OnOneLine p.2
  strings : ∀ m ∈ r.strings, OnOneLine m
  escape : ['\n'] ≠ r.escape

theorem byLine_kotlin : MaskRules.kotlin.prepared.ByLine := by
  constructor <;> decide

/-- What closes the region lies on one line. -/
def Region.ByLine : Region → Prop
  | .blockComment closing => OnOneLine closing
  | .string closing => OnOneLine closing
  | _ => True

/-- What a line begins in if the one before it ends in a region. -/
def Region.next : Region → Region
  | .lineComment => .code
  | region => region

/-- Nothing comes any more, or not on this line. -/
def AtEnd (u : Text) : Prop := u = [] ∨ ∃ v, u = '\n' :: v

theorem startsWith_append (hm : '\n' ∉ m) {u : Text} (hu : AtEnd u) (t : Text) :
    (t ++ u).startsWith m = t.startsWith m := by
  rcases hu with rfl | ⟨u, rfl⟩
  · rw [List.append_nil]
  induction m generalizing t with
  | nil => simp [Text.startsWith]
  | cons a m ih =>
    rw [List.mem_cons, not_or] at hm
    cases t with
    | nil =>
      have ha : (a == '\n') = false := beq_eq_false_iff_ne.mpr (Ne.symm hm.1)
      simp [Text.startsWith, List.isPrefixOf, ha]
    | cons c t =>
      have hrest := ih hm.2 t
      simp only [Text.startsWith] at hrest
      simp only [Text.startsWith, List.cons_append, List.isPrefixOf, hrest]

/-- A marker that opens a region lies before the end of the line. -/
theorem opening?_append (hr : r.ByLine) {u : Text} (hu : AtEnd u) (t : Text) :
    r.opening? (t ++ u) = r.opening? t := by
  have hline : r.lineComments.find? (t ++ u).startsWith = r.lineComments.find? t.startsWith :=
    List.find?_congr fun m hm => startsWith_append (hr.lineComments m hm).2 hu t
  have hblock : r.blockComments.find? (fun p => (t ++ u).startsWith p.1)
      = r.blockComments.find? fun p => t.startsWith p.1 :=
    List.find?_congr fun p hp => startsWith_append (hr.blockComments p hp).1.2 hu t
  have hstring : r.strings.find? (t ++ u).startsWith = r.strings.find? t.startsWith :=
    List.find?_congr fun m hm => startsWith_append (hr.strings m hm).2 hu t
  rw [MaskRules.opening?, MaskRules.opening?, hline, hblock, hstring]

/-- What opens a region is a marker on one line, and so is what closes it. -/
theorem byLine_of_opening? (hr : r.ByLine) (h : r.opening? t = some (m, region)) :
    OnOneLine m ∧ t.startsWith m = true ∧ region.ByLine := by
  unfold MaskRules.opening? at h
  split at h
  · rename_i m' hm
    obtain ⟨rfl, rfl⟩ := Prod.mk.inj (Option.some.inj h)
    exact ⟨hr.lineComments _ (List.mem_of_find?_eq_some hm), List.find?_some hm, trivial⟩
  split at h
  · rename_i p hp
    obtain ⟨rfl, rfl⟩ := Prod.mk.inj (Option.some.inj h)
    have hmarkers := hr.blockComments _ (List.mem_of_find?_eq_some hp)
    have hstart := List.find?_some hp
    exact ⟨hmarkers.1, hstart, hmarkers.2⟩
  · obtain ⟨m', hm, heq⟩ := Option.map_eq_some_iff.mp h
    obtain ⟨rfl, rfl⟩ := Prod.mk.inj heq
    have hmarker := hr.strings _ (List.mem_of_find?_eq_some hm)
    exact ⟨hmarker, List.find?_some hm, hmarker⟩

/-- A marker that a text begins with has its other characters on the line as well. -/
theorem rest_of_startsWith (hm : OnOneLine m) (h : Text.startsWith (c :: t) m = true) :
    c ≠ '\n' ∧ m.length - 1 ≤ t.length ∧ '\n' ∉ t.take (m.length - 1) := by
  obtain ⟨a, m, rfl⟩ := List.exists_cons_of_ne_nil hm.1
  obtain ⟨rfl, u, rfl⟩ := List.cons_prefix_cons.mp (List.isPrefixOf_iff_prefix.mp h)
  obtain ⟨hc, hfeed⟩ := not_or.mp (mt List.mem_cons.mpr hm.2)
  refine ⟨Ne.symm hc, ?_, ?_⟩
  · rw [List.length_cons, Nat.add_sub_cancel, List.length_append]
    exact Nat.le_add_right _ _
  · rw [List.length_cons, Nat.add_sub_cancel, List.take_left]
    exact hfeed

theorem startsWith_of_feed (hm : OnOneLine m) (u : Text) : Text.startsWith ('\n' :: u) m = false := by
  rw [← Bool.not_eq_true]
  exact fun h => (rest_of_startsWith hm h).1 rfl

theorem opening?_of_feed (hr : r.ByLine) (u : Text) : r.opening? ('\n' :: u) = none := by
  rw [Option.eq_none_iff_forall_ne_some]
  rintro ⟨m, region⟩ h
  obtain ⟨hm, hstart, -⟩ := byLine_of_opening? hr h
  rw [startsWith_of_feed hm u] at hstart
  exact Bool.noConfusion hstart

/-- At a line feed nothing is left of the text before it but the region that the next line begins in. -/
theorem maskFrom_feed (hr : r.ByLine) (hregion : region.ByLine) (run : Nat) (u : Text) :
    maskFrom r region 0 run ('\n' :: u) = '\n' :: maskFrom r region.next 0 0 u := by
  have hrun : (if ['\n'] = r.escape then run + 1 else 0) = 0 := if_neg hr.escape
  cases region with
  | code =>
    simp only [maskFrom, hrun, opening?_of_feed hr u]
    rfl
  | lineComment =>
    simp only [maskFrom, hrun, if_true]
    rfl
  | blockComment closing =>
    simp only [maskFrom, hrun, startsWith_of_feed hregion u, Bool.false_eq_true, if_false]
    rfl
  | string closing =>
    have hcloses : closesString closing ('\n' :: u) run = false := by
      rw [closesString, startsWith_of_feed hregion u, Bool.false_and]
    simp only [maskFrom, hrun, hcloses, Bool.false_eq_true, if_false]
    rfl

theorem byLine_next (h : region.ByLine) : region.next.ByLine := by
  cases region <;> exact h

@[simp] theorem next_next (region : Region) : region.next.next = region.next := by
  cases region <;> rfl

/-- The mask of a text does not depend on what comes behind its last line, and has its line feeds where
the text has them. -/
def EndsLine (r : MaskRules) (region : Region) (skip run : Nat) (t : Text) : Prop :=
  (maskFrom r region skip run t).feeds = t.feeds
    ∧ ∃ last : Region, last.ByLine ∧ ∀ u, maskFrom r region skip run (t ++ '\n' :: u)
      = maskFrom r region skip run t ++ '\n' :: maskFrom r last.next 0 0 u

/-- One character is masked and the rest of the text is left. -/
theorem EndsLine.cons {region' : Region} {skip' run' : Nat} {c' : Char}
    (h : EndsLine r region' skip' run' t) (hc : c' = '\n' ↔ c = '\n')
    (hstep : ∀ u, AtEnd u → maskFrom r region skip run (c :: (t ++ u))
      = c' :: maskFrom r region' skip' run' (t ++ u)) :
    EndsLine r region skip run (c :: t) := by
  obtain ⟨hfeeds, last, hlast, hrest⟩ := h
  have hmask := hstep [] (.inl rfl)
  rw [List.append_nil] at hmask
  have hfeed : (c' == '\n') = (c == '\n') := by
    rw [Bool.eq_iff_iff, beq_iff_eq, beq_iff_eq]
    exact hc
  refine ⟨?_, last, hlast, fun u => ?_⟩
  · rw [hmask]
    exact congrArg₂ List.cons hfeed hfeeds
  · rw [List.cons_append, hstep _ (.inr ⟨u, rfl⟩), hrest, hmask, List.cons_append]

theorem blankExceptBreak_eq_feed (c : Char) : blankExceptBreak c = '\n' ↔ c = '\n' := by
  by_cases hc : c = '\n'
  · rw [hc]
    exact iff_of_true rfl rfl
  · rw [blankExceptBreak, if_neg hc]
    exact iff_of_false (by decide) hc

theorem blank_eq_feed (hc : c ≠ '\n') : ' ' = '\n' ↔ c = '\n' := iff_of_false (by decide) hc

/-- The induction is on the text. The characters of a marker that are still to be blanked belong to its
first line. -/
theorem endsLine (hr : r.ByLine) (hregion : region.ByLine) (hskip : skip ≤ t.length)
    (hmarker : '\n' ∉ t.take skip) (run : Nat) : EndsLine r region skip run t := by
  have hcode : Region.ByLine .code := trivial
  have hline : Region.ByLine .lineComment := trivial
  induction t generalizing region skip run with
  | nil =>
    obtain rfl : skip = 0 := Nat.le_zero.mp hskip
    exact ⟨rfl, region, hregion, fun u => maskFrom_feed hr hregion run u⟩
  | cons c t ih =>
    have hnext : ∀ {region' : Region}, region'.ByLine → ∀ run', EndsLine r region' 0 run' t :=
      fun hregion' => ih hregion' (Nat.zero_le _) (by simp)
    cases skip with
    | succ k =>
      rw [List.take_succ_cons, List.mem_cons, not_or] at hmarker
      exact (ih hregion (Nat.le_of_succ_le_succ hskip) hmarker.2 _).cons
        (blank_eq_feed (Ne.symm hmarker.1)) fun u _ => by rw [maskFrom]
    | zero =>
      cases region with
      | code =>
        rcases hopens : r.opening? (c :: t) with _ | ⟨m, inside⟩
        · refine (hnext hcode (if [c] = r.escape then run + 1 else 0)).cons Iff.rfl fun u hu => ?_
          have hopening := opening?_append hr hu (c :: t)
          rw [hopens] at hopening
          simp only [maskFrom, ← List.cons_append, hopening]
        · obtain ⟨hm, hstart, hinside⟩ := byLine_of_opening? hr hopens
          obtain ⟨hc, hlength, hrest⟩ := rest_of_startsWith hm hstart
          refine (ih hinside hlength hrest (if [c] = r.escape then run + 1 else 0)).cons
            (blank_eq_feed hc) fun u hu => ?_
          have hopening := opening?_append hr hu (c :: t)
          rw [hopens] at hopening
          simp only [maskFrom, ← List.cons_append, hopening]
      | lineComment =>
        by_cases hc : c = '\n'
        · exact (hnext hcode _).cons Iff.rfl fun u _ => by rw [maskFrom, if_pos hc]
        · exact (hnext hline _).cons (blank_eq_feed hc) fun u _ => by rw [maskFrom, if_neg hc]
      | blockComment closing =>
        by_cases hstart : Text.startsWith (c :: t) closing = true
        · obtain ⟨hc, hlength, hrest⟩ := rest_of_startsWith hregion hstart
          exact (ih hcode hlength hrest _).cons (blank_eq_feed hc) fun u hu => by
            rw [maskFrom, ← List.cons_append, startsWith_append hregion.2 hu, if_pos hstart]
        · exact (hnext hregion _).cons (blankExceptBreak_eq_feed c) fun u hu => by
            rw [maskFrom, ← List.cons_append, startsWith_append hregion.2 hu, if_neg hstart]
      | string closing =>
        have hcloses : ∀ {u : Text}, AtEnd u → closesString closing (c :: t ++ u) run
            = closesString closing (c :: t) run := fun {u} hu => by
          rw [closesString, closesString, startsWith_append hregion.2 hu]
        by_cases hclose : closesString closing (c :: t) run = true
        · obtain ⟨hc, hlength, hrest⟩ := rest_of_startsWith hregion (Bool.and_elim_left hclose)
          exact (ih hcode hlength hrest _).cons (blank_eq_feed hc) fun u hu => by
            rw [maskFrom, ← List.cons_append, hcloses hu, if_pos hclose]
        · exact (hnext hregion _).cons (blankExceptBreak_eq_feed c) fun u hu => by
            rw [maskFrom, ← List.cons_append, hcloses hu, if_neg hclose]

theorem endsLine_mask {rules : MaskRules} (hr : rules.prepared.ByLine) (t : Text) :
    EndsLine rules.prepared .code 0 0 t :=
  have hcode : Region.ByLine .code := trivial
  endsLine hr hcode (Nat.zero_le _) (by simp) 0

/-- A character is kept or blanked. -/
theorem maskFrom_cons (r : MaskRules) (region : Region) (skip run : Nat) (c : Char) (t : Text) :
    ∃ (c' : Char) (region' : Region) (skip' run' : Nat), (c' = c ∨ c' = ' ')
      ∧ maskFrom r region skip run (c :: t) = c' :: maskFrom r region' skip' run' t := by
  have hbreak : blankExceptBreak c = c ∨ blankExceptBreak c = ' ' := by
    unfold blankExceptBreak
    split
    · exact .inl rfl
    · exact .inr rfl
  cases skip with
  | succ k => exact ⟨_, _, _, _, .inr rfl, by rw [maskFrom]⟩
  | zero =>
    cases region with
    | code =>
      rw [maskFrom]
      split
      · exact ⟨_, _, _, _, .inr rfl, rfl⟩
      · exact ⟨_, _, _, _, .inl rfl, rfl⟩
    | lineComment =>
      by_cases hc : c = '\n'
      · exact ⟨_, _, _, _, .inl rfl, by rw [maskFrom, if_pos hc]⟩
      · exact ⟨_, _, _, _, .inr rfl, by rw [maskFrom, if_neg hc]⟩
    | blockComment closing =>
      by_cases hclose : Text.startsWith (c :: t) closing = true
      · exact ⟨_, _, _, _, .inr rfl, by rw [maskFrom, if_pos hclose]⟩
      · exact ⟨_, _, _, _, hbreak, by rw [maskFrom, if_neg hclose]⟩
    | string closing =>
      by_cases hclose : closesString closing (c :: t) run = true
      · exact ⟨_, _, _, _, .inr rfl, by rw [maskFrom, if_pos hclose]⟩
      · exact ⟨_, _, _, _, hbreak, by rw [maskFrom, if_neg hclose]⟩

theorem mem_maskFrom {a : Char} (h : a ∈ maskFrom r region skip run t) : a ∈ t ∨ a = ' ' := by
  induction t generalizing region skip run with
  | nil => exact absurd h (by simp [maskFrom])
  | cons c t ih =>
    obtain ⟨c', region', skip', run', hc, hstep⟩ := maskFrom_cons r region skip run c t
    rw [hstep, List.mem_cons] at h
    rcases h with rfl | h
    · exact hc.imp_left fun heq => List.mem_cons.mpr (.inl heq)
    · exact (ih h).imp_left (List.mem_cons_of_mem c)

/-- The mask has no line breaks that the text has not. -/
theorem onlyFeeds_mask {rules : MaskRules} (ht : t.OnlyFeeds) : (mask rules t).OnlyFeeds := by
  intro a ha hbreak
  rcases mem_maskFrom ha with hmem | rfl
  · exact ht a hmem hbreak
  · exact absurd hbreak (by decide)

/-- The mask has its line feeds where the text has them. -/
theorem feeds_mask {rules : MaskRules} (hr : rules.prepared.ByLine) (t : Text) :
    (mask rules t).feeds = t.feeds := (endsLine_mask hr t).1

/-- A line feed at the end of the text is one at the end of the mask. -/
theorem mask_end {rules : MaskRules} (hr : rules.prepared.ByLine) (t : Text) :
    mask rules (t ++ ['\n']) = mask rules t ++ ['\n'] := by
  obtain ⟨-, last, -, hrest⟩ := endsLine_mask hr t
  exact hrest []

/-- An empty line where a line begins is an empty line of the mask. -/
theorem mask_blankLine {rules : MaskRules} (hr : rules.prepared.ByLine) {t : Text} (ht : t.AtLine)
    (u : Text) : ∃ v, mask rules (t ++ u) = mask rules t ++ v
      ∧ mask rules (t ++ '\n' :: u) = mask rules t ++ '\n' :: v := by
  have hcode : Region.ByLine .code := trivial
  rcases ht with rfl | ⟨line, rfl⟩
  · exact ⟨mask rules u, rfl, maskFrom_feed hr hcode 0 u⟩
  · obtain ⟨-, last, hlast, hrest⟩ := endsLine_mask hr line
    have hfeed := maskFrom_feed hr (byLine_next hlast) 0 u
    rw [next_next] at hfeed
    refine ⟨maskFrom rules.prepared last.next 0 0 u, ?_, ?_⟩
    · rw [mask_end hr, List.append_assoc, List.append_assoc]
      exact hrest u
    · rw [mask_end hr, List.append_assoc, List.append_assoc, List.singleton_append, ← hfeed]
      exact hrest ('\n' :: u)

end Outline

end Provenance
