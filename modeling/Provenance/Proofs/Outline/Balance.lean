/-
Balanced braces.

Two braces of a text belong together if the text between them is balanced: no beginning of it closes
more than it opens, and all of it closes as many as it opens. To find them in one pass it is enough to
keep the places of the braces that are open, on a stack. Its entry number `n`, counted from the top, is
the place of the opening brace behind which the text leaves `n` braces open and nowhere closes more
than it opens (`getElem?_unclosed`). At the top that is to say that what follows is balanced, so a
closing brace belongs to the brace at the top.

The induction is on the text from its end (`braces_induction`), since a character that is put behind a
text pushes a place, pops one, or does nothing.
-/
import Mathlib.Data.List.Infix
import Provenance.Text.Basic

set_option autoImplicit false

namespace Provenance.Outline

variable {t : Text} {a c : Char} {i j n : Nat}

/-! ## Texts from their ends -/

/-- What holds of the empty text and is kept by an opening brace, a closing brace and any other
character behind a text holds of all texts. -/
@[elab_as_elim]
theorem braces_induction {P : Text → Prop} (t : Text) (nil : P [])
    (opening : ∀ t, P t → P (t ++ ['{'])) (closing : ∀ t, P t → P (t ++ ['}']))
    (other : ∀ t c, c ≠ '{' → c ≠ '}' → P t → P (t ++ [c])) : P t := by
  induction t using List.reverseRecOn with
  | nil => exact nil
  | append_singleton t c ih =>
    by_cases hopening : c = '{'
    · exact hopening ▸ opening t ih
    by_cases hclosing : c = '}'
    · exact hclosing ▸ closing t ih
    · exact other t c hopening hclosing ih

theorem getElem?_concat_iff : (t ++ [c])[i]? = some a ↔ t[i]? = some a ∨ (i = t.length ∧ c = a) := by
  rcases Nat.lt_trichotomy i t.length with hi | rfl | hi
  · rw [List.getElem?_append_left hi]
    simp [Nat.ne_of_lt hi]
  · simp
  · have hnone : (t ++ [c])[i]? = none := by
      rw [List.getElem?_eq_none_iff, List.length_append, List.length_singleton]
      omega
    have hnone' : t[i]? = none := List.getElem?_eq_none_iff.mpr (Nat.le_of_lt hi)
    simp [hnone, hnone', Nat.ne_of_gt hi]

theorem lt_of_getElem? (h : t[i]? = some a) : i < t.length := (List.getElem?_eq_some_iff.mp h).1

/-! ## Balanced texts -/

/-- The braces of the text match: none is closed before it is opened, and none stays open. -/
def Balanced (t : Text) : Prop :=
  (∀ u, u <+: t → u.count '}' ≤ u.count '{') ∧ t.count '{' = t.count '}'

instance (t : Text) : Decidable (Balanced t) :=
  decidable_of_iff ((∀ u ∈ t.inits, u.count '}' ≤ u.count '{') ∧ t.count '{' = t.count '}')
    (by simp only [List.mem_inits, Balanced])

/-- No brace of the text is closed before it is opened, and `n` stay open. -/
def LeavesOpen (n : Nat) (t : Text) : Prop :=
  (∀ u, u <+: t → u.count '}' ≤ u.count '{') ∧ t.count '{' = t.count '}' + n

theorem leavesOpen_zero_iff : LeavesOpen 0 t ↔ Balanced t := Iff.rfl

theorem leavesOpen_nil_iff : LeavesOpen n [] ↔ n = 0 := by
  simp [LeavesOpen, eq_comm]

theorem leavesOpen_opening_iff : LeavesOpen n (t ++ ['{']) ↔ ∃ m, n = m + 1 ∧ LeavesOpen m t := by
  have hopens : (t ++ ['{']).count '{' = t.count '{' + 1 := by simp
  have hcloses : (t ++ ['{']).count '}' = t.count '}' := by simp
  simp only [LeavesOpen, List.prefix_concat_iff, forall_eq_or_imp, hopens, hcloses]
  constructor
  · rintro ⟨⟨-, hbegins⟩, hcount⟩
    have hwhole := hbegins t List.prefix_rfl
    exact ⟨n - 1, by omega, hbegins, by omega⟩
  · rintro ⟨m, rfl, hbegins, hcount⟩
    exact ⟨⟨by omega, hbegins⟩, by omega⟩

theorem leavesOpen_closing_iff : LeavesOpen n (t ++ ['}']) ↔ LeavesOpen (n + 1) t := by
  have hopens : (t ++ ['}']).count '{' = t.count '{' := by simp
  have hcloses : (t ++ ['}']).count '}' = t.count '}' + 1 := by simp
  simp only [LeavesOpen, List.prefix_concat_iff, forall_eq_or_imp, hopens, hcloses]
  constructor
  · rintro ⟨⟨-, hbegins⟩, hcount⟩
    exact ⟨hbegins, by omega⟩
  · rintro ⟨hbegins, hcount⟩
    exact ⟨⟨by omega, hbegins⟩, by omega⟩

theorem leavesOpen_other_iff (hopening : c ≠ '{') (hclosing : c ≠ '}') :
    LeavesOpen n (t ++ [c]) ↔ LeavesOpen n t := by
  have hopens : (t ++ [c]).count '{' = t.count '{' := by
    rw [List.count_append, List.count_singleton, if_neg (by simpa using hopening), Nat.add_zero]
  have hcloses : (t ++ [c]).count '}' = t.count '}' := by
    rw [List.count_append, List.count_singleton, if_neg (by simpa using hclosing), Nat.add_zero]
  simp only [LeavesOpen, List.prefix_concat_iff, forall_eq_or_imp, hopens, hcloses]
  constructor
  · rintro ⟨⟨-, hbegins⟩, hcount⟩
    exact ⟨hbegins, hcount⟩
  · rintro ⟨hbegins, hcount⟩
    have hwhole := hbegins t List.prefix_rfl
    exact ⟨⟨hwhole, hbegins⟩, hcount⟩

/-! ## Open braces -/

/-- The places of the braces that are open behind a text, the last one first. The text is given
backwards. -/
def unclosedRev : Text → List Nat
  | [] => []
  | c :: before =>
    if c = '{' then before.length :: unclosedRev before
    else if c = '}' then (unclosedRev before).tail
    else unclosedRev before

/-- The places of the braces that are open behind a text, the last one first. -/
def unclosed (t : Text) : List Nat := unclosedRev t.reverse

theorem unclosed_opening (t : Text) : unclosed (t ++ ['{']) = t.length :: unclosed t := by
  rw [unclosed, List.reverse_concat, unclosedRev, if_pos rfl, List.length_reverse, unclosed]

theorem unclosed_closing (t : Text) : unclosed (t ++ ['}']) = (unclosed t).tail := by
  rw [unclosed, List.reverse_concat, unclosedRev, if_neg (by decide), if_pos rfl, unclosed]

theorem unclosed_other (hopening : c ≠ '{') (hclosing : c ≠ '}') (t : Text) :
    unclosed (t ++ [c]) = unclosed t := by
  rw [unclosed, List.reverse_concat, unclosedRev, if_neg hopening, if_neg hclosing, unclosed]

theorem lt_of_mem_unclosed : ∀ i ∈ unclosed t, i < t.length := by
  have hmore : ∀ (t : Text) (c : Char), (∀ i ∈ unclosed t, i < t.length) →
      ∀ i ∈ unclosed t, i < (t ++ [c]).length := by
    intro t c h i hi
    rw [List.length_append]
    exact Nat.lt_add_right _ (h i hi)
  induction t using braces_induction with
  | nil => simp [unclosed, unclosedRev]
  | opening t ih =>
    rw [unclosed_opening]
    exact List.forall_mem_cons.mpr ⟨by simp, hmore t _ ih⟩
  | closing t ih =>
    rw [unclosed_closing]
    exact fun i hi => hmore t _ ih i (List.mem_of_mem_tail hi)
  | other t c hopening hclosing ih =>
    rw [unclosed_other hopening hclosing]
    exact hmore t c ih

theorem nodup_unclosed (t : Text) : (unclosed t).Nodup := by
  induction t using braces_induction with
  | nil => exact List.nodup_nil
  | opening t ih =>
    rw [unclosed_opening]
    exact List.nodup_cons.mpr ⟨fun hmem => Nat.lt_irrefl _ (lt_of_mem_unclosed _ hmem), ih⟩
  | closing t ih =>
    rw [unclosed_closing]
    exact ih.tail
  | other t c hopening hclosing ih =>
    rw [unclosed_other hopening hclosing]
    exact ih

/-- A brace that opens in a text with one character more, and what is left open behind it. -/
theorem opens_concat_iff : (t ++ [c])[i]? = some '{' ∧ LeavesOpen n ((t ++ [c]).drop (i + 1))
    ↔ (t[i]? = some '{' ∧ LeavesOpen n (t.drop (i + 1) ++ [c])) ∨ (i = t.length ∧ c = '{' ∧ n = 0) := by
  rw [getElem?_concat_iff, or_and_right, and_assoc]
  refine or_congr (and_congr_right fun hi => ?_) (and_congr_right fun hi => and_congr_right fun _ => ?_)
  · rw [List.drop_append_of_le_length (lt_of_getElem? hi)]
  · have hdrop : (t ++ [c]).drop (i + 1) = [] := by simp [hi]
    rw [hdrop, leavesOpen_nil_iff]

/-- What is open is known by what stands behind it. -/
theorem getElem?_unclosed :
    (unclosed t)[n]? = some i ↔ t[i]? = some '{' ∧ LeavesOpen n (t.drop (i + 1)) := by
  induction t using braces_induction generalizing n with
  | nil => simp [unclosed, unclosedRev]
  | opening t ih =>
    rw [opens_concat_iff, unclosed_opening, leavesOpen_opening_iff]
    cases n with
    | zero => simp [eq_comm]
    | succ n => simp [ih]
  | closing t ih =>
    rw [opens_concat_iff, unclosed_closing, List.getElem?_tail, ih, leavesOpen_closing_iff]
    simp
  | other t c hopening hclosing ih =>
    rw [opens_concat_iff, unclosed_other hopening hclosing, ih, leavesOpen_other_iff hopening hclosing]
    simp [hopening]

/-- What is below an open brace on the stack is what was open before it. -/
theorem unclosed_take {outer : List Nat} (h : (unclosed t).drop n = i :: outer) :
    unclosed (t.take i) = outer := by
  have hmore : ∀ (t : Text) (c : Char) (m : Nat), (unclosed t).drop m = i :: outer →
      unclosed (t.take i) = outer → unclosed ((t ++ [c]).take i) = outer := by
    intro t c m hm hsame
    have hi : i < t.length := lt_of_mem_unclosed i (List.mem_of_mem_drop (hm ▸ List.mem_cons_self))
    rwa [List.take_append_of_le_length (Nat.le_of_lt hi)]
  induction t using braces_induction generalizing n with
  | nil => simp [unclosed, unclosedRev] at h
  | opening t ih =>
    rw [unclosed_opening] at h
    cases n with
    | zero =>
      obtain ⟨rfl, rfl⟩ := List.cons.inj h
      rw [List.take_left]
    | succ n => exact hmore t _ n h (ih h)
  | closing t ih =>
    rw [unclosed_closing, ← List.drop_one, List.drop_drop] at h
    exact hmore t _ _ h (ih h)
  | other t c hopening hclosing ih =>
    rw [unclosed_other hopening hclosing] at h
    exact hmore t c n h (ih h)

/-! ## Pairs -/

/-- What stands strictly between two places. -/
def between (t : Text) (i j : Nat) : Text := (t.take j).drop (i + 1)

/-- The braces at two places belong together: one opens, a later one closes, and what is between them
is balanced. -/
structure Pairs (t : Text) (i j : Nat) : Prop where
  lt : i < j
  opening : t[i]? = some '{'
  closing : t[j]? = some '}'
  balanced : Balanced (between t i j)

instance (t : Text) (i j : Nat) : Decidable (Pairs t i j) :=
  decidable_of_iff (i < j ∧ t[i]? = some '{' ∧ t[j]? = some '}' ∧ Balanced (between t i j))
    ⟨fun ⟨h₁, h₂, h₃, h₄⟩ => ⟨h₁, h₂, h₃, h₄⟩, fun h => ⟨h.lt, h.opening, h.closing, h.balanced⟩⟩

/-- A closing brace belongs to the one that was opened last. -/
theorem pairs_iff : Pairs t i j ↔ t[j]? = some '}' ∧ (unclosed (t.take j))[0]? = some i := by
  rw [getElem?_unclosed, leavesOpen_zero_iff, List.getElem?_take]
  constructor
  · rintro ⟨hlt, hopening, hclosing, hbalanced⟩
    exact ⟨hclosing, by rw [if_pos hlt, hopening], hbalanced⟩
  · rintro ⟨hclosing, hopening, hbalanced⟩
    split at hopening
    · exact ⟨‹_›, hopening, hclosing, hbalanced⟩
    · exact absurd hopening (by simp)

/-- A character that is put behind a text makes a pair with the brace that was opened last, if it
closes. -/
theorem pairs_concat_iff : Pairs (t ++ [c]) i j
    ↔ Pairs t i j ∨ (j = t.length ∧ c = '}' ∧ (unclosed t)[0]? = some i) := by
  rw [pairs_iff, pairs_iff, getElem?_concat_iff, or_and_right, and_assoc]
  refine or_congr (and_congr_right fun hj => ?_) (and_congr_right fun hj => ?_)
  · rw [List.take_append_of_le_length (Nat.le_of_lt (lt_of_getElem? hj))]
  · rw [hj, List.take_left]

/-- What is open has no partner. -/
theorem mem_unclosed : i ∈ unclosed t ↔ t[i]? = some '{' ∧ ∀ j, ¬Pairs t i j := by
  induction t using braces_induction with
  | nil => simp [unclosed, unclosedRev]
  | opening t ih =>
    have hlast : ∀ j, ¬Pairs t t.length j := fun j h =>
      Nat.lt_irrefl _ (lt_of_getElem? h.opening)
    simp only [unclosed_opening, List.mem_cons, ih, getElem?_concat_iff, pairs_concat_iff]
    constructor
    · rintro (rfl | ⟨hi, hpairs⟩)
      · exact ⟨.inr ⟨rfl, trivial⟩, by simpa using hlast⟩
      · exact ⟨.inl hi, by simpa using hpairs⟩
    · rintro ⟨hi | ⟨rfl, -⟩, hpairs⟩
      · exact .inr ⟨hi, fun j h => hpairs j (.inl h)⟩
      · exact .inl rfl
  | closing t ih =>
    -- no place is on the stack twice, so the one at the top is gone
    have htail : i ∈ (unclosed t).tail ↔ i ∈ unclosed t ∧ (unclosed t)[0]? ≠ some i := by
      rcases hstack : unclosed t with _ | ⟨top, outer⟩
      · simp
      · have htop := (List.nodup_cons.mp (hstack ▸ nodup_unclosed t)).1
        simp only [List.tail_cons, List.mem_cons, List.getElem?_cons_zero, Option.some.injEq, ne_eq]
        constructor
        · exact fun hi => ⟨.inr hi, fun heq => htop (heq ▸ hi)⟩
        · exact fun ⟨hi, hne⟩ => hi.resolve_left (Ne.symm hne)
    simp only [unclosed_closing, htail, ih, getElem?_concat_iff, pairs_concat_iff]
    constructor
    · rintro ⟨⟨hi, hpairs⟩, htop⟩
      exact ⟨.inl hi, fun j h => h.elim (hpairs j) fun h => htop h.2.2⟩
    · rintro ⟨hi, hpairs⟩
      have hopening := hi.resolve_right fun h => absurd h.2 (by decide)
      exact ⟨⟨hopening, fun j h => hpairs j (.inl h)⟩, fun htop => hpairs _ (.inr ⟨rfl, trivial, htop⟩)⟩
  | other t c hopening hclosing ih =>
    simp only [unclosed_other hopening hclosing, ih, getElem?_concat_iff, pairs_concat_iff]
    simp [hopening, hclosing]

/-- A place between two others divides what is between these. -/
theorem between_eq {k : Nat} (hk : t[k]? = some c) (hik : i < k) (hkj : k < j) :
    between t i j = between t i k ++ c :: between t k j := by
  obtain ⟨hlength, rfl⟩ := List.getElem?_eq_some_iff.mp hk
  have htake : (t.take j).take k = t.take k := by rw [List.take_take, Nat.min_eq_left (Nat.le_of_lt hkj)]
  have hk' : k < (t.take j).length := by
    rw [List.length_take]
    omega
  have hdrop : (t.take j).drop k = t[k] :: (t.take j).drop (k + 1) := by
    rw [List.drop_eq_getElem_cons hk', List.getElem_take]
  have hik' : i + 1 ≤ (t.take k).length := by
    rw [List.length_take]
    omega
  rw [between, ← List.take_append_drop k (t.take j), htake, hdrop,
    List.drop_append_of_le_length hik']
  rfl

/-- Behind the opening brace of a pair, and before its closing one, more braces are open than closed
wherever one closes. -/
theorem Pairs.count_lt {k : Nat} (h : Pairs t i j) (hk : t[k]? = some '}') (hik : i < k) (hkj : k < j) :
    (between t i k).count '}' < (between t i k).count '{' := by
  have hbegins : between t i k ++ ['}'] <+: between t i j := by
    rw [between_eq hk hik hkj, List.prefix_append_right_inj, List.cons_prefix_cons]
    exact ⟨rfl, List.nil_prefix⟩
  have hcount := h.balanced.1 _ hbegins
  simp only [List.count_append, List.count_singleton] at hcount
  exact hcount

/-- An opening brace belongs to one closing brace. -/
theorem Pairs.closing_unique {j' : Nat} (h : Pairs t i j) (h' : Pairs t i j') : j = j' := by
  have hle : ∀ {j j'}, Pairs t i j → Pairs t i j' → j' ≤ j := by
    intro j j' h h'
    by_contra hlt
    have hcount := h'.count_lt h.closing h.lt (Nat.lt_of_not_le hlt)
    have htotal := h.balanced.2
    omega
  exact Nat.le_antisymm (hle h' h) (hle h h')

/-- Of two pairs the one that opens later closes before the other, or opens behind it. -/
theorem Pairs.apart {i' j' : Nat} (h : Pairs t i j) (h' : Pairs t i' j') (hlt : i < i') :
    j < i' ∨ j' < j := by
  by_contra hcross
  obtain ⟨hopen, hclose⟩ := not_or.mp hcross
  have hne : i' ≠ j := by
    rintro rfl
    exact absurd (h.closing.symm.trans h'.opening) (by decide)
  have hinside : i' < j := by omega
  -- what is between the later opening brace and `j` closes no more than it opens
  have hlater : (between t i' j).count '}' ≤ (between t i' j).count '{' := by
    rcases Nat.lt_or_ge j j' with hj | hj
    · exact Nat.le_of_lt (h'.count_lt h.closing hinside hj)
    · obtain rfl : j = j' := by omega
      exact Nat.le_of_eq h'.balanced.2.symm
  -- so all that is between `i` and `j` leaves the later opening brace open
  have hsplit := between_eq h'.opening hlt hinside
  have hearlier := h.balanced.1 (between t i i') (hsplit ▸ List.prefix_append _ _)
  have htotal := h.balanced.2
  rw [hsplit] at htotal
  simp only [List.count_append, List.count_cons_self, List.count_cons_of_ne (by decide : '{' ≠ '}')]
    at htotal
  omega

/-- The number of opening braces of a text that are not closed in it. -/
def openIn (t : Text) : Nat :=
  ((List.range t.length).filter fun i => t[i]? = some '{' ∧ ∀ j < t.length, ¬Pairs t i j).length

theorem length_unclosed (t : Text) : (unclosed t).length = openIn t := by
  refine ((List.perm_ext_iff_of_nodup (nodup_unclosed t) (List.nodup_range.filter _)).mpr
    fun i => ?_).length_eq
  simp only [mem_unclosed, List.mem_filter, List.mem_range, decide_eq_true_eq]
  constructor
  · rintro ⟨hi, hpairs⟩
    exact ⟨lt_of_getElem? hi, hi, fun j _ => hpairs j⟩
  · rintro ⟨-, hi, hpairs⟩
    exact ⟨hi, fun j h => hpairs j (lt_of_getElem? h.closing) h⟩

end Provenance.Outline
