/-
The order of declarations.

Whatever finds declarations may come to them in any order; they are shown by their lines, their name and
their kind. Those four do not tell everything. Two declarations of one kind and one name on the same lines
may still differ in their scope, their parent or their full name, and then they are left in the order in
which they were found.

So the sequence of lines, names and kinds is always the same, and arranging what is arranged changes
nothing. That the declarations themselves are shown in one order, however they were found, holds exactly if
no two of them differ in nothing but what the order does not look at. `arranged_alike_iff` says so.
-/
import Mathlib.Data.List.DropRight
import Mathlib.Data.List.Perm.Basic
import Provenance.Proofs.ArtifactPath
import Provenance.Proofs.Outline.Contract

set_option autoImplicit false

namespace Provenance

/-! ## Trimmed texts -/

namespace Text

variable {c : Char} {t : Text}

theorem trimRight_cons (h : isBlank c = false) (t : Text) :
    trimRight (c :: t) = c :: t.trimRight := by
  have hlast : ∀ u : Text, (u ++ [c]).dropWhile isBlank = u.dropWhile isBlank ++ [c] := by
    intro u
    induction u with
    | nil => simp [h]
    | cons b u ih =>
      rw [List.cons_append, List.dropWhile_cons, List.dropWhile_cons]
      split
      · exact ih
      · rfl
  rw [trimRight, dropRightWhile, List.reverse_cons, hlast, List.reverse_append]
  rfl

theorem trimRight_trimRight (t : Text) : t.trimRight.trimRight = t.trimRight := by
  simp only [trimRight, dropRightWhile, List.reverse_reverse, List.dropWhile_idempotent]

/-- Nothing is taken off a text from which blanks have been taken. -/
theorem trim_trim (t : Text) : t.trim.trim = t.trim := by
  -- what is left at the beginning is not blank, and stays when the other end is trimmed
  have hleft : t.trimLeft.trimRight.trimLeft = t.trimLeft.trimRight := by
    rcases hcut : t.trimLeft with _ | ⟨c, u⟩
    · rfl
    · have hc : isBlank c = false := by
        have hdrop : t.dropWhile isBlank = c :: u := hcut
        have hnot := List.head?_dropWhile_not isBlank t
        rwa [hdrop] at hnot
      rw [trimRight_cons hc, trimLeft, List.dropWhile_cons, hc]
      rfl
  calc t.trim.trim = t.trimLeft.trimRight.trimLeft.trimRight := rfl
    _ = t.trim := by rw [hleft, trimRight_trimRight, trim]

end Text

namespace Outline

variable {d e : Declaration} {ds es : List Declaration}

theorem trimmed?_trimmed? (t : Option Text) : trimmed? (trimmed? t) = trimmed? t := by
  rcases t with _ | t
  · rfl
  · rcases htrim : t.trim with _ | ⟨c, u⟩
    · simp [trimmed?, htrim]
    · have hagain := t.trim_trim
      rw [htrim] at hagain
      simp [trimmed?, htrim, hagain]

@[simp] theorem Declaration.trimmed_trimmed (d : Declaration) : d.trimmed.trimmed = d.trimmed := by
  simp only [trimmed, trimmed?_trimmed?]

/-! ## What the order looks at -/

instance : Std.TransCmp Declaration.order :=
  inferInstanceAs (Std.TransCmp (compareLex (compareOn Declaration.startLine)
    (compareLex (compareOn Declaration.endLine)
      (compareLex (compareOn Declaration.name) (compareOn Declaration.kind)))))

/-- Two declarations compare equal exactly if they have the same lines, the same name and the same
kind. -/
theorem Declaration.order_eq_iff : d.order e = .eq
    ↔ d.startLine = e.startLine ∧ d.endLine = e.endLine ∧ d.name = e.name ∧ d.kind = e.kind := by
  simp only [order, Ordering.then_eq_eq, Std.LawfulEqCmp.compare_eq_iff_eq]

/-- A declaration with nothing but its lines, its name and its kind. -/
def Declaration.seen (d : Declaration) : Declaration :=
  { d with fullName := none, scope := .topLevel, parent := none }

theorem Declaration.seen_eq_seen (h : d.order e = .eq) : d.seen = e.seen := by
  obtain ⟨hstart, hend, hname, hkind⟩ := order_eq_iff.mp h
  rw [seen, hstart, hend, hname, hkind]
  rfl

/-- However declarations come, once they are sorted they show the same lines, names and kinds. -/
theorem map_seen_sortBy (h : es.Perm ds) : (sortBy Declaration.order es).map Declaration.seen
    = (sortBy Declaration.order ds).map Declaration.seen := by
  have hsorted : ∀ xs : List Declaration, (sortBy Declaration.order xs).map Declaration.seen
      = sortBy Declaration.order (xs.map Declaration.seen) := fun xs =>
    (sortBy_map (fun d e => (rfl : d.seen.order e.seen = d.order e)) xs).symm
  rw [hsorted, hsorted]
  refine sortBy_of_perm (h.map Declaration.seen) fun a ha b hb hab => ?_
  obtain ⟨a, -, rfl⟩ := List.mem_map.mp ha
  obtain ⟨b, -, rfl⟩ := List.mem_map.mp hb
  exact Declaration.seen_eq_seen hab

/-! ## Arranging -/

/-- Arranging what is arranged changes nothing. -/
theorem arrange_arranged (h : ∀ d ∈ ds, d.trimmed.breach? = none) {shown : List Declaration}
    (hshown : arrange ds = .ok shown) : arrange shown = .ok shown := by
  rw [arrange_eq h] at hshown
  obtain rfl := Except.ok.inj hshown
  have hmem : ∀ d ∈ sortBy Declaration.order (ds.map Declaration.trimmed),
      ∃ e ∈ ds, e.trimmed = d := fun d hd => List.mem_map.mp (mem_sortBy.mp hd)
  refine arrange_eq_self (fun d hd => ?_) (fun d hd => ?_) (pairwise_sortBy _)
  · obtain ⟨e, he, rfl⟩ := hmem d hd
    rw [e.trimmed_trimmed]
    exact h e he
  · obtain ⟨e, -, rfl⟩ := hmem d hd
    exact e.trimmed_trimmed

/-- Declarations that meet the contract are shown, and what is shown is arranged already. In whatever order
they are found, the same lines, names and kinds are shown in the same sequence; the same declarations are
exactly if any two of the same lines, name and kind are the same once they are trimmed. -/
theorem arranged_alike_iff (h : ∀ d ∈ ds, d.trimmed.breach? = none) :
    ∃ shown, arrange ds = .ok shown ∧ arrange shown = .ok shown
      ∧ (∀ es, es.Perm ds →
        ∃ shown', arrange es = .ok shown' ∧ shown'.map Declaration.seen = shown.map Declaration.seen)
      ∧ ((∀ es, es.Perm ds → arrange es = .ok shown)
        ↔ ∀ d ∈ ds, ∀ e ∈ ds, d.order e = .eq → d.trimmed = e.trimmed) := by
  have hperm : ∀ es, es.Perm ds →
      arrange es = .ok (sortBy Declaration.order (es.map Declaration.trimmed)) :=
    fun es hes => arrange_eq fun d hd => h d (hes.mem_iff.mp hd)
  refine ⟨_, arrange_eq h, arrange_arranged h (arrange_eq h), fun es hes => ?_, ?_⟩
  · exact ⟨_, hperm es hes, map_seen_sortBy (hes.map Declaration.trimmed)⟩
  -- what is sorted are the trimmed declarations, in any order that they can be found in
  have hsorted : (∀ es, es.Perm ds →
      arrange es = .ok (sortBy Declaration.order (ds.map Declaration.trimmed)))
      ↔ ∀ ys, ys.Perm (ds.map Declaration.trimmed) →
        sortBy Declaration.order ys = sortBy Declaration.order (ds.map Declaration.trimmed) := by
    constructor
    · intro hall ys hys
      have hback : Relation.Comp (· = List.map Declaration.trimmed ·) List.Perm ys ds := by
        rw [List.eq_map_comp_perm]
        exact hys
      obtain ⟨es, rfl, hes⟩ := hback
      exact Except.ok.inj ((hperm es hes).symm.trans (hall es hes))
    · intro hall es hes
      rw [hperm es hes, hall _ (hes.map Declaration.trimmed)]
  rw [hsorted, sortBy_perm_iff]
  simp only [List.forall_mem_map]
  rfl

/-- A class on the first line that is known by a full name. -/
def classOfFullName (fullName : Text) : Declaration where
  kind := "class".toList
  name := "A".toList
  fullName := some fullName
  scope := .topLevel
  startLine := 1
  endLine := 1
  parent := none

/-- Two declarations on different lines are shown in one order. -/
theorem arranged_alike_two : ∃ shown,
    (∀ es, es.Perm [{ classOfFullName "p.A".toList with endLine := 3 }, classOfFullName " q.A".toList] →
      arrange es = .ok shown)
    ∧ shown = [classOfFullName "q.A".toList, { classOfFullName "p.A".toList with endLine := 3 }] := by
  have hcontract : ∀ d ∈
      [{ classOfFullName "p.A".toList with endLine := 3 }, classOfFullName " q.A".toList],
      d.trimmed.breach? = none := by decide
  obtain ⟨shown, hshown, -, -, hall⟩ := arranged_alike_iff hcontract
  exact ⟨shown, hall.mpr (by decide), Except.ok.inj (hshown.symm.trans (by decide))⟩

/-- Two classes of one name on one line are shown in the order in which they were found. -/
theorem not_arranged_alike :
    [classOfFullName "q.A".toList, classOfFullName "p.A".toList].Perm
      [classOfFullName "p.A".toList, classOfFullName "q.A".toList]
    ∧ (∀ d ∈ [classOfFullName "p.A".toList, classOfFullName "q.A".toList],
      d.breach? = none ∧ d.trimmed.breach? = none)
    ∧ arrange [classOfFullName "p.A".toList, classOfFullName "q.A".toList]
      = .ok [classOfFullName "p.A".toList, classOfFullName "q.A".toList]
    ∧ arrange [classOfFullName "q.A".toList, classOfFullName "p.A".toList]
      ≠ arrange [classOfFullName "p.A".toList, classOfFullName "q.A".toList] :=
  ⟨.swap .., by decide, by decide, by decide⟩

end Outline

end Provenance
