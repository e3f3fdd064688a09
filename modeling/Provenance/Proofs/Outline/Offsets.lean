/-
Places in a masked text.

Whatever markers a rule set has, the mask of a text is as long as the text, and in each place it
has the character of the text or a blank. Line feeds in comments and strings are left as they are,
but a marker is blanked as it stands. So a line feed is lost exactly where it is part of a marker,
and the rule sets that keep all lines of all texts are those that use no marker with a line feed in
it. A rule set may have such a marker and not use it: one that is tried earlier may stand in its
way wherever it begins.

The induction goes through the text with what lies before it. What is carried along is that an
open block comment was opened in this text, so that what may close it is in use, and that the
characters which are still to be blanked are the rest of a marker.
-/
import Provenance.Proofs.Order
import Provenance.Proofs.Outline.Lines

set_option autoImplicit false

namespace Provenance.Outline

variable {r : MaskRules} {region inside : Region} {before t m : Text} {c : Char} {skip run i : Nat}

/-! ## Markers in use -/

/-- The rules use a marker: there is a text that it begins as an opening, or that a block comment begins
which it may close, in that it stands somewhere behind the opening. A string is closed by what opens
it. -/
def MaskRules.Uses (r : MaskRules) (m : Text) : Prop :=
  ∃ t opening inside, r.opening? t = some (opening, inside)
    ∧ (m = opening ∨ inside = .blockComment m ∧ m <:+: t.drop opening.length)

/-- The place is one of those that a marker in use takes up in the text. -/
def InMarker (r : MaskRules) (t : Text) (i : Nat) : Prop :=
  ∃ before m rest, t = before ++ m ++ rest ∧ before.length ≤ i ∧ i < before.length + m.length ∧ r.Uses m

/-- No marker of the rules is empty. -/
structure MaskRules.Visible (r : MaskRules) : Prop where
  lineComments : ∀ m ∈ r.lineComments, m ≠ []
  blockComments : ∀ p ∈ r.blockComments, p.1 ≠ [] ∧ p.2 ≠ []
  strings : ∀ m ∈ r.strings, m ≠ []

theorem visible_prepared (rules : MaskRules) : rules.prepared.Visible where
  lineComments _ hm := of_decide_eq_true (List.mem_filter.mp (mem_sortBy.mp hm)).2
  blockComments _ hp := of_decide_eq_true (List.mem_filter.mp (mem_sortBy.mp hp)).2
  strings _ hm := of_decide_eq_true (List.mem_filter.mp (mem_sortBy.mp hm)).2

/-- What opens a region is no empty marker, and stands where the region begins. What closes a block
comment is none either, and what closes a string is what opens it. -/
theorem cases_of_opening? (hr : r.Visible) (h : r.opening? t = some (m, inside)) :
    m ≠ [] ∧ m <+: t ∧ (inside = .lineComment ∨ (∃ closing, closing ≠ [] ∧ inside = .blockComment closing)
      ∨ inside = .string m) := by
  unfold MaskRules.opening? at h
  split at h
  · rename_i found hfound
    obtain ⟨rfl, rfl⟩ := Prod.mk.inj (Option.some.inj h)
    have hstart : t.startsWith found = true := List.find?_some hfound
    exact ⟨hr.lineComments _ (List.mem_of_find?_eq_some hfound),
      List.isPrefixOf_iff_prefix.mp hstart, .inl rfl⟩
  split at h
  · rename_i p hp
    obtain ⟨rfl, rfl⟩ := Prod.mk.inj (Option.some.inj h)
    obtain ⟨hopening, hclosing⟩ := hr.blockComments _ (List.mem_of_find?_eq_some hp)
    have hstart := List.find?_some hp
    exact ⟨hopening, List.isPrefixOf_iff_prefix.mp hstart, .inr (.inl ⟨_, hclosing, rfl⟩)⟩
  · obtain ⟨found, hfound, heq⟩ := Option.map_eq_some_iff.mp h
    obtain ⟨rfl, rfl⟩ := Prod.mk.inj heq
    have hstart : t.startsWith found = true := List.find?_some hfound
    exact ⟨hr.strings _ (List.mem_of_find?_eq_some hfound),
      List.isPrefixOf_iff_prefix.mp hstart, .inr (.inr rfl)⟩

/-- A character of a marker in use. -/
theorem exists_of_inMarker (h : InMarker r t i) (hc : t[i]? = some c) : ∃ m, r.Uses m ∧ c ∈ m := by
  obtain ⟨before, m, rest, rfl, hle, hlt, hm⟩ := h
  refine ⟨m, hm, List.mem_of_getElem? (i := i - before.length) ?_⟩
  rwa [List.append_assoc, List.getElem?_append_right hle, List.getElem?_append_left (by omega)] at hc

theorem uses_of_opening? (h : r.opening? t = some (m, inside)) : r.Uses m :=
  ⟨t, m, inside, h, .inl rfl⟩

/-! ## States of the mask -/

/-- The region was opened before the text: what may close it is in use if it stands in the text. -/
def Region.Begun (r : MaskRules) : Region → Text → Prop
  | .blockComment closing, t => closing ≠ []
    ∧ ∃ opening u, r.opening? (opening ++ u ++ t) = some (opening, .blockComment closing)
  | .string closing, _ => closing ≠ [] ∧ r.Uses closing
  | _, _ => True

/-- What the mask has come to behind a text: the region it is in has been opened, and the characters that
it has yet to blank are the end of a marker that began before them. -/
structure Comes (r : MaskRules) (before : Text) (region : Region) (skip : Nat) (t : Text) : Prop where
  begun : region.Begun r (t.drop skip)
  marker : skip ≠ 0 → ∃ b m, before ++ t = b ++ m ++ t.drop skip ∧ b.length ≤ before.length
    ∧ skip ≤ t.length ∧ r.Uses m

theorem Comes.free (h : region.Begun r t) (before : Text) : Comes r before region 0 t :=
  ⟨h, fun hne => absurd rfl hne⟩

/-- Where a marker in use begins, its first character is in it, and the others are to be blanked. -/
theorem Comes.of_marker {rest : Text} (hm : r.Uses (c :: m)) (h : region.Begun r rest) (before : Text) :
    InMarker r (before ++ c :: (m ++ rest)) before.length
      ∧ Comes r (before ++ [c]) region m.length (m ++ rest) := by
  have hsplit : before ++ c :: (m ++ rest) = before ++ (c :: m) ++ rest := by simp
  refine ⟨⟨before, c :: m, rest, hsplit, Nat.le_refl _, by simp, hm⟩, ?_, fun _ => ?_⟩
  · rwa [List.drop_left]
  · refine ⟨before, c :: m, ?_, ?_, ?_, hm⟩
    · rw [List.drop_left, ← hsplit, List.append_assoc, List.singleton_append]
    · simp
    · simp

/-- In a place the mask keeps the character, or it has a blank there, and then a line feed is lost only to
a marker. -/
def Covers (r : MaskRules) (t : Text) (i : Nat) (c c' : Char) : Prop :=
  c' = c ∨ c' = ' ' ∧ (c = '\n' → InMarker r t i)

/-- A marker that is found is blanked. -/
theorem blanks_marker (hm : r.Uses m) (hne : m ≠ []) (hstart : m <+: c :: t)
    (h : ∀ rest, c :: t = m ++ rest → region.Begun r rest) (before : Text) :
    Covers r (before ++ c :: t) before.length c ' '
      ∧ Comes r (before ++ [c]) region (m.length - 1) t := by
  obtain ⟨rest, hrest⟩ := hstart
  have hbegun := h rest hrest.symm
  obtain ⟨a, m, rfl⟩ := List.exists_cons_of_ne_nil hne
  rw [List.cons_append] at hrest
  obtain ⟨rfl, rfl⟩ := List.cons.inj hrest
  obtain ⟨hin, hcomes⟩ := Comes.of_marker hm hbegun before
  exact ⟨.inr ⟨rfl, fun _ => hin⟩, hcomes⟩

theorem covers_blankExceptBreak (r : MaskRules) (t : Text) (i : Nat) (c : Char) :
    Covers r t i c (blankExceptBreak c) := by
  unfold blankExceptBreak
  split
  · exact .inl rfl
  · rename_i hc
    exact .inr ⟨rfl, fun heq => absurd heq hc⟩

/-- One character is masked. -/
theorem maskFrom_covers (hr : r.Visible) (h : Comes r before region skip (c :: t)) (run : Nat) :
    ∃ c' region' skip' run', maskFrom r region skip run (c :: t) = c' :: maskFrom r region' skip' run' t
      ∧ Covers r (before ++ c :: t) before.length c c' ∧ Comes r (before ++ [c]) region' skip' t := by
  have hcode : Region.Begun r .code t := trivial
  have hline : Region.Begun r .lineComment t := trivial
  cases skip with
  | succ k =>
    obtain ⟨b, m, heq, hb, hk, hm⟩ := h.marker (Nat.succ_ne_zero k)
    refine ⟨_, _, _, _, by rw [maskFrom], .inr ⟨rfl, fun _ => ?_⟩, h.begun, fun _ => ?_⟩
    · have hlength := congrArg List.length heq
      simp only [List.length_append, List.length_cons, List.length_drop] at hlength hk
      exact ⟨b, m, _, heq, hb, by omega, hm⟩
    · rw [List.length_cons] at hk
      refine ⟨b, m, ?_, ?_, by omega, hm⟩
      · rwa [List.append_assoc, List.singleton_append]
      · rw [List.length_append]
        omega
  | zero =>
    have hbegun := h.begun
    rw [List.drop_zero] at hbegun
    cases region with
    | code =>
      rcases hopens : r.opening? (c :: t) with _ | ⟨m, inside⟩
      · exact ⟨_, _, _, _, by simp only [maskFrom, hopens]; rfl, .inl rfl, .free hcode _⟩
      · obtain ⟨hne, hstart, hinside⟩ := cases_of_opening? hr hopens
        have hm := uses_of_opening? hopens
        refine ⟨_, _, _, _, by simp only [maskFrom, hopens]; rfl, blanks_marker hm hne hstart
          (fun rest hrest => ?_) before⟩
        rcases hinside with rfl | ⟨closing, hclosing, rfl⟩ | rfl
        · trivial
        · exact ⟨hclosing, m, [], by rwa [List.append_nil, ← hrest]⟩
        · exact ⟨hne, hm⟩
    | lineComment =>
      by_cases hc : c = '\n'
      · exact ⟨_, _, _, _, by rw [maskFrom, if_pos hc], .inl rfl, .free hcode _⟩
      · exact ⟨_, _, _, _, by rw [maskFrom, if_neg hc], .inr ⟨rfl, fun heq => absurd heq hc⟩,
          .free hline _⟩
    | blockComment closing =>
      obtain ⟨hne, opening, u, hopens⟩ := hbegun
      by_cases hclose : Text.startsWith (c :: t) closing = true
      · have hstart := List.isPrefixOf_iff_prefix.mp hclose
        -- the comment was opened by a marker that its closing stands behind
        have hm : r.Uses closing := by
          refine ⟨_, opening, _, hopens, .inr ⟨rfl, ?_⟩⟩
          rw [List.append_assoc, List.drop_left]
          exact (hstart.isInfix).trans (List.suffix_append u _).isInfix
        exact ⟨_, _, _, _, by rw [maskFrom, if_pos hclose],
          blanks_marker hm hne hstart (fun _ _ => by trivial) before⟩
      · refine ⟨_, _, _, _, by rw [maskFrom, if_neg hclose], covers_blankExceptBreak .., .free ?_ _⟩
        refine ⟨hne, opening, u ++ [c], ?_⟩
        simpa only [List.append_assoc, List.singleton_append] using hopens
    | string closing =>
      obtain ⟨hne, hm⟩ := hbegun
      by_cases hclose : closesString closing (c :: t) run = true
      · have hstart := List.isPrefixOf_iff_prefix.mp (Bool.and_elim_left hclose)
        exact ⟨_, _, _, _, by rw [maskFrom, if_pos hclose],
          blanks_marker hm hne hstart (fun _ _ => by trivial) before⟩
      · refine ⟨_, _, _, _, by rw [maskFrom, if_neg hclose], covers_blankExceptBreak .., .free ?_ _⟩
        exact ⟨hne, hm⟩

/-- The mask is as long as the text and covers it place by place. -/
theorem covers_maskFrom (hr : r.Visible) (h : Comes r before region skip t) (run : Nat) :
    (maskFrom r region skip run t).length = t.length
      ∧ ∀ i c, t[i]? = some c → ∃ c', (maskFrom r region skip run t)[i]? = some c'
        ∧ Covers r (before ++ t) (before.length + i) c c' := by
  induction t generalizing before region skip run with
  | nil => exact ⟨by rw [maskFrom], fun i c hc => absurd hc (by simp)⟩
  | cons a t ih =>
    obtain ⟨a', region', skip', run', hstep, hcovers, hcomes⟩ := maskFrom_covers hr h run
    obtain ⟨hlength, hrest⟩ := ih hcomes run'
    rw [hstep]
    refine ⟨congrArg (· + 1) hlength, fun i c hc => ?_⟩
    cases i with
    | zero =>
      obtain rfl : a = c := Option.some.inj hc
      exact ⟨a', rfl, hcovers⟩
    | succ i =>
      obtain ⟨c', hc', hcovers'⟩ := hrest i c hc
      refine ⟨c', hc', ?_⟩
      rw [List.append_assoc, List.singleton_append, List.length_append, List.length_singleton,
        Nat.add_assoc, Nat.add_comm 1 i] at hcovers'
      exact hcovers'

/-! ## Lost line feeds -/

/-- A line feed of the text is a blank in what is shown of it. -/
def LosesFeed (t shown : Text) : Prop := ∃ i : Nat, t[i]? = some '\n' ∧ shown[i]? = some ' '

theorem LosesFeed.cons {shown : Text} (h : LosesFeed t shown) (c c' : Char) :
    LosesFeed (c :: t) (c' :: shown) := by
  obtain ⟨i, hi⟩ := h
  exact ⟨i + 1, hi⟩

/-- A line feed among the characters that are to be blanked is lost. -/
theorem losesFeed_skip (hm : '\n' ∈ m) (u : Text) (region : Region) (run : Nat) :
    LosesFeed (m ++ u) (maskFrom r region m.length run (m ++ u)) := by
  induction m generalizing run with
  | nil => exact absurd hm List.not_mem_nil
  | cons a m ih =>
    rw [List.cons_append, List.length_cons, maskFrom]
    by_cases ha : a = '\n'
    · exact ⟨0, by rw [ha]; rfl, rfl⟩
    · exact (ih ((List.mem_cons.mp hm).resolve_left (Ne.symm ha)) _).cons a ' '

/-- So is one in a marker that is found: its first character is blanked at once, and its others are
to be blanked. -/
theorem losesFeed_marker (hm : '\n' ∈ m) (hstart : m <+: c :: t) (region : Region) (run : Nat) :
    LosesFeed (c :: t) (' ' :: maskFrom r region (m.length - 1) run t) := by
  obtain ⟨rest, hrest⟩ := hstart
  cases m with
  | nil => exact absurd hm List.not_mem_nil
  | cons a m =>
    rw [List.cons_append] at hrest
    obtain ⟨rfl, rfl⟩ := List.cons.inj hrest
    by_cases ha : a = '\n'
    · exact ⟨0, by rw [ha]; rfl, rfl⟩
    · exact (losesFeed_skip ((List.mem_cons.mp hm).resolve_left (Ne.symm ha)) rest region run).cons a ' '

/-- A block comment loses the line feeds of what closes it, wherever that stands. -/
theorem losesFeed_closing (hm : '\n' ∈ m) (h : m <:+: t) (run : Nat) :
    LosesFeed t (maskFrom r (.blockComment m) 0 run t) := by
  induction t generalizing run with
  | nil => exact absurd hm (by simp [List.infix_nil.mp h])
  | cons c t ih =>
    by_cases hclose : Text.startsWith (c :: t) m = true
    · rw [maskFrom, if_pos hclose]
      exact losesFeed_marker hm (List.isPrefixOf_iff_prefix.mp hclose) .code _
    · rw [maskFrom, if_neg hclose]
      have hrest : m <:+: t := (List.infix_cons_iff.mp h).resolve_left
        fun hstart => hclose (List.isPrefixOf_iff_prefix.mpr hstart)
      exact (ih hrest _).cons c _

/-- Behind the characters that are to be blanked the region goes on. -/
theorem losesFeed_behind (region : Region) {u : Text}
    (h : ∀ run, LosesFeed u (maskFrom r region 0 run u)) (m : Text) (run : Nat) :
    LosesFeed (m ++ u) (maskFrom r region m.length run (m ++ u)) := by
  induction m generalizing run with
  | nil => exact h run
  | cons a m ih =>
    rw [List.cons_append, List.length_cons, maskFrom]
    exact (ih _).cons a ' '

/-- A text shows that a marker in use loses its line feeds. -/
theorem exists_losesFeed (hr : r.Visible) (hm : r.Uses m) (hfeed : '\n' ∈ m) :
    ∃ t, LosesFeed t (maskFrom r .code 0 0 t) := by
  obtain ⟨t, opening, inside, hopens, hcases⟩ := hm
  obtain ⟨hne, ⟨rest, rfl⟩, -⟩ := cases_of_opening? hr hopens
  obtain ⟨a, opening, rfl⟩ := List.exists_cons_of_ne_nil hne
  refine ⟨a :: (opening ++ rest), ?_⟩
  have hmask : maskFrom r .code 0 0 (a :: (opening ++ rest))
      = ' ' :: maskFrom r inside opening.length (if [a] = r.escape then 0 + 1 else 0) (opening ++ rest) := by
    rw [List.cons_append] at hopens
    simp only [maskFrom, hopens, List.length_cons, Nat.add_sub_cancel]
  rw [hmask]
  rcases hcases with rfl | ⟨rfl, hinfix⟩
  · exact losesFeed_marker (m := a :: opening) hfeed (List.prefix_append _ _) inside _
  · rw [List.drop_left] at hinfix
    exact (losesFeed_behind _ (losesFeed_closing hfeed hinfix) opening _).cons a ' '

/-! ## Places -/

/-- Under all rules a mask is as long as its text and has in each place the character of the text or a
blank; a line feed is blanked only within a marker. The rules under which all texts keep their line
feeds, and get no others, are those that use no marker with a line feed. -/
theorem mask_places (rules : MaskRules) :
    (∀ t : Text, (mask rules t).length = t.length
      ∧ ∀ i c, t[i]? = some c → (mask rules t)[i]? = some c
        ∨ (mask rules t)[i]? = some ' ' ∧ (c = '\n' → InMarker rules.prepared t i))
    ∧ ((∀ (t : Text) (i : Nat), (mask rules t)[i]? = some '\n' ↔ t[i]? = some '\n')
      ↔ ∀ m, rules.prepared.Uses m → '\n' ∉ m) := by
  have hr := visible_prepared rules
  have hcode : ∀ t, Comes rules.prepared [] .code 0 t := fun t => .free (by trivial) []
  have hcovers : ∀ t : Text, (mask rules t).length = t.length
      ∧ ∀ i c, t[i]? = some c → ∃ c', (mask rules t)[i]? = some c' ∧ Covers rules.prepared t i c c' := by
    intro t
    obtain ⟨hlength, hplaces⟩ := covers_maskFrom hr (hcode t) 0
    refine ⟨hlength, fun i c hc => ?_⟩
    obtain ⟨c', hc', hcover⟩ := hplaces i c hc
    rw [List.nil_append, List.length_nil, Nat.zero_add] at hcover
    exact ⟨c', hc', hcover⟩
  refine ⟨fun t => ⟨(hcovers t).1, fun i c hc => ?_⟩, fun hkeeps m hm hfeed => ?_, fun hnone t i => ?_⟩
  · obtain ⟨c', hc', rfl | ⟨rfl, hmarker⟩⟩ := (hcovers t).2 i c hc
    · exact .inl hc'
    · exact .inr ⟨hc', hmarker⟩
  · obtain ⟨t, i, hfeed, hblank⟩ := exists_losesFeed hr hm hfeed
    have hkept := (hkeeps t i).mpr hfeed
    rw [mask, hblank] at hkept
    exact absurd hkept (by decide)
  · obtain ⟨hlength, hplaces⟩ := hcovers t
    rcases hget : t[i]? with _ | c
    · rw [List.getElem?_eq_none_iff] at hget
      rw [List.getElem?_eq_none (hlength ▸ hget)]
    obtain ⟨c', hc', rfl | ⟨rfl, hmarker⟩⟩ := hplaces i c hget
    · rw [hc']
    -- a line feed that is blanked would be one in a marker
    have hc : c ≠ '\n' := by
      rintro rfl
      obtain ⟨m, hm, hfeed⟩ := exists_of_inMarker (hmarker rfl) hget
      exact hnone m hm hfeed
    rw [hc', Option.some.injEq, Option.some.injEq]
    exact iff_of_false (by decide) hc

/-- The rules of a notation whose comments go from a hash sign to the end of the line, where the line feed
is taken for what closes them. -/
def hashRules : MaskRules := ⟨[], [(['#'], ['\n'])], [], []⟩

/-- The line feed behind such a comment is blanked with it, and two lines become one. -/
theorem not_keeps_feed_in_marker : mask hashRules "#a\nb".toList = "   b".toList
    ∧ "#a\nb".toList[2]? = some '\n' ∧ (mask hashRules "#a\nb".toList)[2]? = some ' ' := by decide

end Provenance.Outline
