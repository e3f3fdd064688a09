/-
Sorted lists and first occurrences.

Sorting keeps the elements of a list and puts them in order. Two lists without repetitions
that have the same elements are therefore the same once they are sorted. Elements that compare
equal stay in the order they came in, so `sortBy_perm_iff` has that order matter exactly where
two of them are different.
-/
import Mathlib.Data.List.Induction
import Mathlib.Data.List.Nodup
import Provenance.Order

set_option autoImplicit false

namespace Provenance

/-! ## Sorting -/

section Sorting

variable {α β : Type} {cmp : α → α → Ordering} {a b : α} {xs ys : List α}

theorem mem_insertBy : b ∈ insertBy cmp a xs ↔ b = a ∨ b ∈ xs := by
  induction xs with
  | nil => simp [insertBy]
  | cons x xs ih =>
    unfold insertBy
    split
    · simp
    · rw [List.mem_cons, ih, List.mem_cons, or_left_comm]

theorem mem_sortBy : b ∈ sortBy cmp xs ↔ b ∈ xs := by
  induction xs with
  | nil => simp [sortBy]
  | cons x xs ih => rw [sortBy, mem_insertBy, ih, List.mem_cons]

theorem mem_sortOn {κ : Type} [Ord κ] {key : α → κ} : b ∈ sortOn key xs ↔ b ∈ xs := mem_sortBy

theorem mem_sorted [Ord α] : b ∈ sorted xs ↔ b ∈ xs := mem_sortBy

theorem pairwise_insertBy [Std.TransCmp cmp] (a : α) (h : xs.Pairwise fun b c => (cmp b c).isLE = true) :
    (insertBy cmp a xs).Pairwise fun b c => (cmp b c).isLE = true := by
  induction xs with
  | nil => exact List.pairwise_singleton _ a
  | cons x xs ih =>
    obtain ⟨hx, hxs⟩ := List.pairwise_cons.mp h
    unfold insertBy
    by_cases hle : (cmp a x).isLE = true
    · rw [if_pos hle]
      refine List.pairwise_cons.mpr ⟨fun b hb => ?_, h⟩
      rcases List.mem_cons.mp hb with rfl | hb
      · exact hle
      · exact Std.TransCmp.isLE_trans hle (hx b hb)
    · rw [if_neg hle]
      refine List.pairwise_cons.mpr ⟨fun b hb => ?_, ih hxs⟩
      rcases mem_insertBy.mp hb with rfl | hb
      · -- of two elements one does not exceed the other
        apply Std.OrientedCmp.isGE_iff_isLE.mp
        revert hle
        cases cmp b x <;> simp
      · exact hx b hb

/-- What is sorted is in order. -/
theorem pairwise_sortBy [Std.TransCmp cmp] (xs : List α) :
    (sortBy cmp xs).Pairwise fun b c => (cmp b c).isLE = true := by
  induction xs with
  | nil => exact List.Pairwise.nil
  | cons x xs ih => exact pairwise_insertBy x ih

theorem perm_insertBy (cmp : α → α → Ordering) (a : α) (xs : List α) :
    (insertBy cmp a xs).Perm (a :: xs) := by
  induction xs with
  | nil => exact .refl _
  | cons x xs ih =>
    unfold insertBy
    split
    · exact .refl _
    · exact (ih.cons x).trans (.swap a x xs)

theorem perm_sortBy (cmp : α → α → Ordering) (xs : List α) : (sortBy cmp xs).Perm xs := by
  induction xs with
  | nil => exact .refl _
  | cons x xs ih => exact (perm_insertBy cmp x _).trans (ih.cons x)

/-- A list in order is sorted. -/
theorem sortBy_eq_self (h : xs.Pairwise fun b c => (cmp b c).isLE = true) : sortBy cmp xs = xs := by
  induction h with
  | nil => rfl
  | @cons a xs ha _ ih =>
    rw [sortBy, ih]
    cases xs with
    | nil => rfl
    | cons b xs => rw [insertBy, if_pos (ha b List.mem_cons_self)]

/-- If no two elements compare equal, in what order they come makes no difference once they are
sorted. -/
theorem sortBy_of_perm [Std.TransCmp cmp] (h : xs.Perm ys)
    (hties : ∀ a ∈ xs, ∀ b ∈ xs, cmp a b = .eq → a = b) : sortBy cmp xs = sortBy cmp ys := by
  have hperm : (sortBy cmp xs).Perm (sortBy cmp ys) :=
    (perm_sortBy cmp xs).trans (h.trans (perm_sortBy cmp ys).symm)
  refine List.Perm.eq_of_pairwise (fun a b ha hb hab hba => ?_) (pairwise_sortBy xs)
    (pairwise_sortBy ys) hperm
  exact hties a (mem_sortBy.mp ha) b (h.mem_iff.mpr (mem_sortBy.mp hb))
    (Std.OrientedCmp.isLE_antisymm hab hba)

theorem sorted_of_perm [Ord α] [Std.TransOrd α] [Std.LawfulEqOrd α] (h : xs.Perm ys) :
    sorted xs = sorted ys :=
  sortBy_of_perm h fun _ _ _ _ => Std.LawfulEqCmp.eq_of_compare

/-- Lists without repetitions that have the same elements are sorted to one list. -/
theorem sorted_eq_sorted [Ord α] [Std.TransOrd α] [Std.LawfulEqOrd α] (hxs : xs.Nodup)
    (hys : ys.Nodup) (h : ∀ a, a ∈ xs ↔ a ∈ ys) : sorted xs = sorted ys :=
  sorted_of_perm ((List.perm_ext_iff_of_nodup hxs hys).mpr h)

/-- What is picked from a sorted list without repetitions is the sorted form of whatever has its
elements. -/
theorem filter_sorted [Ord α] [Std.TransOrd α] [Std.LawfulEqOrd α] {p : α → Bool} (hxs : xs.Nodup)
    (hys : ys.Nodup) (h : ∀ a, a ∈ ys ↔ a ∈ xs ∧ p a = true) : (sorted xs).filter p = sorted ys := by
  have hself : sorted ((sorted xs).filter p) = (sorted xs).filter p :=
    sortBy_eq_self ((pairwise_sortBy xs).filter p)
  rw [← hself]
  refine sorted_eq_sorted (((perm_sortBy compare xs).nodup_iff.mpr hxs).filter p) hys fun a => ?_
  rw [List.mem_filter, mem_sorted, h]

/-- A list without repetitions is in strict order once it is sorted. -/
theorem pairwise_lt_sorted [Ord α] [Std.TransOrd α] [Std.LawfulEqOrd α] (h : xs.Nodup) :
    (sorted xs).Pairwise fun a b => compare a b = .lt := by
  have hnodup : (sorted xs).Pairwise (· ≠ ·) := (perm_sortBy compare xs).nodup_iff.mpr h
  refine ((pairwise_sortBy xs).and hnodup).imp fun {a b} hab => ?_
  rcases hcmp : compare a b with _ | _ | _
  · rfl
  · exact absurd (Std.LawfulEqCmp.eq_of_compare hcmp) hab.2
  · rw [hcmp] at hab
    exact absurd hab.1 (by decide)

/-! ### Ties -/

theorem filter_insertBy {p : α → Bool} (hp : ∀ b ∈ xs, p a = true → p b = true → (cmp a b).isLE = true) :
    (insertBy cmp a xs).filter p = (a :: xs).filter p := by
  induction xs with
  | nil => rfl
  | cons x xs ih =>
    obtain ⟨hx, hxs⟩ := List.forall_mem_cons.mp hp
    unfold insertBy
    split
    · rfl
    · rename_i hle
      -- an element that is passed over is not among those that keep their order
      rw [List.filter_cons, ih hxs, List.filter_cons, List.filter_cons (x := a), List.filter_cons]
      cases ha : p a <;> cases hb : p x <;> simp_all

/-- Elements of which none exceeds another keep the order that they came in. -/
theorem filter_sortBy {p : α → Bool}
    (hp : ∀ a ∈ xs, ∀ b ∈ xs, p a = true → p b = true → (cmp a b).isLE = true) :
    (sortBy cmp xs).filter p = xs.filter p := by
  induction xs with
  | nil => rfl
  | cons x xs ih =>
    have hrest := ih fun a ha b hb => hp a (List.mem_cons_of_mem x ha) b (List.mem_cons_of_mem x hb)
    have hfirst : ∀ b ∈ sortBy cmp xs, p x = true → p b = true → (cmp x b).isLE = true := fun b hb =>
      hp x List.mem_cons_self b (List.mem_cons_of_mem x (mem_sortBy.mp hb))
    rw [sortBy, filter_insertBy hfirst, List.filter_cons, List.filter_cons, hrest]

/-- Two elements of a list can be brought to its beginning. -/
theorem exists_perm_cons_cons [DecidableEq α] (ha : a ∈ xs) (hb : b ∈ xs) (hne : a ≠ b) :
    ∃ rest, (a :: b :: rest).Perm xs := by
  have hb' : b ∈ xs.erase a := (List.mem_erase_of_ne (Ne.symm hne)).mpr hb
  exact ⟨(xs.erase a).erase b,
    ((List.perm_cons_erase hb').symm.cons a).trans (List.perm_cons_erase ha).symm⟩

/-- In what order elements come makes no difference once they are sorted exactly if no two of them
compare equal. -/
theorem sortBy_perm_iff [DecidableEq α] [Std.TransCmp cmp] :
    (∀ ys, ys.Perm xs → sortBy cmp ys = sortBy cmp xs)
      ↔ ∀ a ∈ xs, ∀ b ∈ xs, cmp a b = .eq → a = b := by
  refine ⟨fun h a ha b hb hab => ?_, fun h ys hys => (sortBy_of_perm hys.symm h).symm⟩
  by_contra hne
  -- of two that compare equal, the one that comes first stays first
  obtain ⟨rest, hrest⟩ := exists_perm_cons_cons ha hb hne
  have hsame := (h _ hrest).trans (h _ ((List.Perm.swap a b rest).trans hrest)).symm
  have hties : ∀ c d, (cmp c a == .eq) = true → (cmp d a == .eq) = true → (cmp c d).isLE = true := by
    intro c d hc hd
    have hc := eq_of_beq hc
    have hd := Std.OrientedCmp.eq_symm (eq_of_beq hd)
    exact Std.TransCmp.isLE_trans (by rw [hc]; rfl) (by rw [hd]; rfl)
  have hfilter := congrArg (List.filter fun c => cmp c a == .eq) hsame
  rw [filter_sortBy fun c _ d _ => hties c d, filter_sortBy fun c _ d _ => hties c d] at hfilter
  have hself : (cmp a a == .eq) = true := beq_iff_eq.mpr Std.ReflCmp.compare_self
  have hother : (cmp b a == .eq) = true := beq_iff_eq.mpr (Std.OrientedCmp.eq_symm hab)
  simp only [List.filter_cons, hself, hother, if_true] at hfilter
  exact hne (List.cons.inj hfilter).1

section Map

variable {cmp' : β → β → Ordering} {f : α → β}

theorem insertBy_map (h : ∀ b ∈ xs, cmp' (f a) (f b) = cmp a b) :
    insertBy cmp' (f a) (xs.map f) = (insertBy cmp a xs).map f := by
  induction xs with
  | nil => rfl
  | cons x xs ih =>
    obtain ⟨hx, hxs⟩ := List.forall_mem_cons.mp h
    rw [List.map_cons, insertBy, insertBy, hx]
    split
    · rfl
    · rw [ih hxs, List.map_cons]

/-- What is put in the place of the elements of a list is sorted as they are, if it compares as they
do. -/
theorem sortBy_map_of_mem (h : ∀ a ∈ xs, ∀ b ∈ xs, cmp' (f a) (f b) = cmp a b) :
    sortBy cmp' (xs.map f) = (sortBy cmp xs).map f := by
  induction xs with
  | nil => rfl
  | cons x xs ih =>
    have hrest := ih fun a ha b hb => h a (List.mem_cons_of_mem x ha) b (List.mem_cons_of_mem x hb)
    have hfirst : ∀ b ∈ sortBy cmp xs, cmp' (f x) (f b) = cmp x b := fun b hb =>
      h x List.mem_cons_self b (List.mem_cons_of_mem x (mem_sortBy.mp hb))
    rw [List.map_cons, sortBy, sortBy, hrest, insertBy_map hfirst]

theorem sortBy_map (h : ∀ a b, cmp' (f a) (f b) = cmp a b) (xs : List α) :
    sortBy cmp' (xs.map f) = (sortBy cmp xs).map f :=
  sortBy_map_of_mem fun a _ b _ => h a b

end Map

end Sorting

/-! ## First occurrences -/

section Distinct

variable {α : Type} [DecidableEq α] {a : α} {xs : List α}

theorem distinct_concat (xs : List α) (a : α) :
    distinct (xs ++ [a]) = if a ∈ distinct xs then distinct xs else distinct xs ++ [a] := by
  by_cases h : a ∈ distinct xs
  · rw [if_pos h, distinct, List.foldl_append]
    exact if_pos h
  · rw [if_neg h, distinct, List.foldl_append]
    exact if_neg h

theorem mem_distinct : a ∈ distinct xs ↔ a ∈ xs := by
  induction xs using List.reverseRecOn with
  | nil => simp [distinct]
  | append_singleton xs b ih =>
    rw [distinct_concat]
    split
    · rename_i hb
      rw [List.mem_append, List.mem_singleton, ← ih]
      exact ⟨.inl, fun h => h.elim id fun heq => heq ▸ hb⟩
    · rw [List.mem_append, List.mem_append, ih]

theorem nodup_distinct (xs : List α) : (distinct xs).Nodup := by
  induction xs using List.reverseRecOn with
  | nil => exact List.nodup_nil
  | append_singleton xs b ih =>
    rw [distinct_concat]
    split
    · exact ih
    · rename_i hb
      rw [← List.concat_eq_append]
      exact ih.concat hb

end Distinct

end Provenance
