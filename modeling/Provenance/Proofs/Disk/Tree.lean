/-
What a tree holds at each location after a change.

A tree is changed by going down to one location and rebuilding the way back.
Seen through `find?`, which tells what a location holds, each change is a change
at that location and at the directory it is in, and nothing else: these are the
equations that everything about disks is proved from. No later file looks at the
lists of trees that a directory is made of, except where the order in which they
are listed matters.
-/
import Provenance.Disk.Tree

set_option autoImplicit false

namespace Provenance.Tree

variable {t : Tree} {l l' : Location} {n m : Text} {e : Entry}

/-! ## One level -/

@[simp] theorem entry_setChild (t : Tree) (n : Text) (c : Tree) : (t.setChild n c).entry = t.entry :=
  rfl

@[simp] theorem entry_dropChild (t : Tree) (n : Text) : (t.dropChild n).entry = t.entry := rfl

@[simp] theorem entry_setEntry (t : Tree) (e : Entry) : (t.setEntry e).entry = e := rfl

@[simp] theorem entry_leaf (e : Entry) : (leaf e).entry = e := rfl

@[simp] theorem child?_setEntry (t : Tree) (e : Entry) (n : Text) :
    (t.setEntry e).child? n = t.child? n := rfl

@[simp] theorem child?_leaf (e : Entry) (n : Text) : (leaf e).child? n = none := rfl

theorem lookup_setNamed (n m : Text) (c : Tree) (trees : List (Text × Tree)) :
    (setNamed n c trees).lookup m = if m = n then some c else trees.lookup m := by
  induction trees with
  | nil =>
    by_cases h : m = n
    · simp [setNamed, h]
    · have hb : (m == n) = false := by simpa using h
      simp [setNamed, List.lookup_cons, h, hb]
  | cons kt rest ih =>
    obtain ⟨k, t⟩ := kt
    by_cases hk : k = n
    · subst hk
      by_cases h : m = k
      · simp [setNamed, h]
      · have hb : (m == k) = false := by simpa using h
        simp [setNamed, List.lookup_cons, h, hb]
    · by_cases h : m = k
      · subst h
        simp [setNamed, hk]
      · have hb : (m == k) = false := by simpa using h
        simp [setNamed, List.lookup_cons, hk, hb, ih]

theorem lookup_filter_ne {α : Type} (n m : Text) (trees : List (Text × α)) :
    (trees.filter fun nt => nt.1 ≠ n).lookup m = if m = n then none else trees.lookup m := by
  induction trees with
  | nil => simp
  | cons kt rest ih =>
    obtain ⟨k, t⟩ := kt
    by_cases hk : k = n
    · subst hk
      by_cases h : m = k
      · simpa [List.filter_cons, h] using ih
      · have hb : (m == k) = false := by simpa using h
        simpa [List.filter_cons, List.lookup_cons, h, hb] using ih
    · by_cases h : m = k
      · subst h
        simp [hk]
      · have hb : (m == k) = false := by simpa using h
        simpa [List.filter_cons, List.lookup_cons, hk, hb] using ih

theorem child?_setChild (t : Tree) (n m : Text) (c : Tree) :
    (t.setChild n c).child? m = if m = n then some c else t.child? m :=
  lookup_setNamed n m c t.children

theorem child?_dropChild (t : Tree) (n m : Text) :
    (t.dropChild n).child? m = if m = n then none else t.child? m :=
  lookup_filter_ne n m t.children

/-! ## Locations -/

@[simp] theorem at?_nil (t : Tree) : t.at? [] = some t := rfl

theorem at?_cons (t : Tree) (n : Text) (l : Location) :
    t.at? (n :: l) = (t.child? n).bind (·.at? l) := by
  rw [at?]
  cases t.child? n <;> rfl

theorem at?_append (t : Tree) (l m : Location) : t.at? (l ++ m) = (t.at? l).bind (·.at? m) := by
  induction l generalizing t with
  | nil => rfl
  | cons n l ih =>
    rw [List.cons_append, at?_cons, at?_cons]
    cases t.child? n with
    | none => rfl
    | some c => exact ih c

@[simp] theorem find?_nil (t : Tree) : t.find? [] = some t.entry := rfl

theorem find?_cons (t : Tree) (n : Text) (l : Location) :
    t.find? (n :: l) = (t.child? n).bind (·.find? l) := by
  rw [find?, at?_cons]
  cases t.child? n <;> rfl

theorem find?_append (t : Tree) (l m : Location) :
    t.find? (l ++ m) = (t.at? l).bind (·.find? m) := by
  rw [find?, at?_append]
  cases t.at? l <;> rfl

theorem find?_eq_none_iff : t.find? l = none ↔ t.at? l = none := by simp [find?]

/-- Where nothing is, nothing is below. -/
theorem find?_append_of_none (h : t.find? l = none) (m : Location) : t.find? (l ++ m) = none := by
  rw [find?_append, find?_eq_none_iff.mp h]
  rfl

theorem isDirectory_iff : t.isDirectory l = true ↔ ∃ time, t.find? l = some (.directory time) := by
  unfold isDirectory
  cases t.find? l with
  | none => simp
  | some e => cases e <;> simp [Entry.isDirectory]

/-- Nothing is below an empty location, at whatever depth. -/
theorem find?_below_of_isEmptyAt (h : t.isEmptyAt l = true) (n : Text) (m : Location) :
    t.find? (l ++ n :: m) = none := by
  rw [find?_append]
  cases hl : t.at? l with
  | none => rfl
  | some d =>
    have hd : d.children = [] := by simpa [isEmptyAt, hl] using h
    show d.find? (n :: m) = none
    rw [find?_cons, child?, hd]
    rfl

/-- A location with something below it is not empty. -/
theorem isEmptyAt_of_find?_none (h : ∀ n, t.find? (l ++ [n]) = none) : t.isEmptyAt l = true := by
  unfold isEmptyAt
  cases hl : t.at? l with
  | none => rfl
  | some d =>
    have hd : d.children = [] := by
      rcases hc : d.children with _ | ⟨⟨n, c⟩, rest⟩
      · rfl
      -- a first child would be found under its own name
      · have hn := h n
        rw [find?_append, hl] at hn
        have hchild : d.child? n = some c := by simp [child?, hc]
        simp [find?_cons, hchild] at hn
    simp [hd]

/-! ## Changes at one location -/

theorem put_of_child {c : Tree} (h : t.child? n = some c) (l : Location) (e : Entry) :
    t.put (n :: l) e = t.setChild n (c.put l e) := by
  rw [put.eq_def]
  simp only [h]

theorem put_of_no_child (h : t.child? n = none) (e : Entry) :
    t.put [n] e = t.setChild n (leaf e) := by
  rw [put.eq_def]
  simp only [h]

/-- Setting an entry whose directory is there changes that location alone. -/
theorem find?_put (h : l = [] ∨ (t.find? l.dropLast).isSome) (e : Entry) (l' : Location) :
    (t.put l e).find? l' = if l' = l then some e else t.find? l' := by
  -- induction on the location that is set; the one that is looked up goes down beside it, and parts
  -- from it where the names differ
  induction l generalizing t l' with
  | nil =>
    cases l' with
    | nil => rfl
    | cons m l' => rw [put, find?_cons, find?_cons]; rfl
  | cons n l ih =>
    cases hc : t.child? n with
    | some c =>
      rw [put_of_child hc]
      have hl : l = [] ∨ (c.find? l.dropLast).isSome := by
        cases l with
        | nil => exact .inl rfl
        | cons k l =>
          rw [List.dropLast_cons_of_ne_nil (by simp), find?_cons, hc] at h
          simpa using h
      cases l' with
      | nil => simp
      | cons m l' =>
        simp only [find?_cons, child?_setChild]
        by_cases hm : m = n
        · subst hm
          simpa [hc] using ih hl l'
        · simp [hm]
    -- nothing is there yet: this is the last name, since the directory of the location is there
    | none =>
      cases l with
      | nil =>
        rw [put_of_no_child hc]
        cases l' with
        | nil => simp
        | cons m l' =>
          simp only [find?_cons, child?_setChild]
          by_cases hm : m = n
          · subst hm
            cases l' with
            | nil => simp
            | cons k l' => simp [find?_cons, hc]
          · simp [hm]
      | cons k l =>
        rw [List.dropLast_cons_of_ne_nil (by simp), find?_cons, hc] at h
        simp at h

/-- Moving a time changes the time at that location alone. -/
theorem find?_stamp (t : Tree) (l : Location) (time : Int) (l' : Location) :
    (t.stamp l time).find? l'
      = if l' = l then (t.find? l').map (Entry.setTime time) else t.find? l' := by
  induction l generalizing t l' with
  | nil =>
    cases l' with
    | nil => rfl
    | cons m l' => rw [stamp, setTime, find?_cons, find?_cons]; rfl
  | cons n l ih =>
    unfold stamp
    cases hc : t.child? n with
    | some c =>
      cases l' with
      | nil => simp
      | cons m l' =>
        simp only [find?_cons, child?_setChild]
        by_cases hm : m = n
        · subst hm
          simpa [hc] using ih c l'
        · simp [hm]
    | none =>
      cases l' with
      | nil => simp
      | cons m l' =>
        by_cases hm : m = n
        · subst hm
          simp [find?_cons, hc]
        · simp [hm]

/-- Taking an entry away takes away what is below it, and nothing else. -/
theorem find?_prune (h : l ≠ []) (t : Tree) (l' : Location) :
    (t.prune l).find? l' = if l <+: l' then none else t.find? l' := by
  induction l generalizing t l' with
  | nil => exact absurd rfl h
  | cons n l ih =>
    -- the last name is dropped, and at the names before it only one child is replaced
    cases l with
    | nil =>
      unfold prune
      cases l' with
      | nil => simp
      | cons m l' =>
        simp only [find?_cons, child?_dropChild, List.cons_prefix_cons, List.nil_prefix, and_true]
        by_cases hm : m = n
        · subst hm; simp
        · simp [hm, Ne.symm hm]
    | cons k l =>
      rw [prune]
      · cases hc : t.child? n with
        | some c =>
          cases l' with
          | nil => simp
          | cons m l' =>
            simp only [find?_cons, child?_setChild, List.cons_prefix_cons]
            by_cases hm : m = n
            · subst hm
              simpa [hc, find?_cons] using ih (by simp) c l'
            · simp [hm, Ne.symm hm]
        | none =>
          cases l' with
          | nil => simp
          | cons m l' =>
            by_cases hm : m = n
            · subst hm
              simp [find?_cons, hc]
            · simp [List.cons_prefix_cons, Ne.symm hm]
      · simp

/-- A new entry is at its location, and the time of its directory has moved. -/
theorem find?_add {dir : Location} (h : (t.find? dir).isSome) (n : Text) (e : Entry) (now : Int)
    (l' : Location) :
    (t.add (dir ++ [n]) e now).find? l'
      = if l' = dir ++ [n] then some e
        else if l' = dir then (t.find? l').map (Entry.setTime now)
        else t.find? l' := by
  have hput := find?_put (t := t) (l := dir ++ [n]) (.inr (by simpa using h)) e
  rw [add, find?_stamp, hput, List.dropLast_concat]
  by_cases h₁ : l' = dir ++ [n]
  · subst h₁
    simp
  · simp [h₁]

/-- An entry that is taken away is gone with all that was below it, and the time of its directory
has moved. -/
theorem find?_remove {dir : Location} (t : Tree) (n : Text) (now : Int) (l' : Location) :
    (t.remove (dir ++ [n]) now).find? l'
      = if dir ++ [n] <+: l' then none
        else if l' = dir then (t.find? l').map (Entry.setTime now)
        else t.find? l' := by
  rw [remove, find?_stamp, find?_prune (by simp), List.dropLast_concat]
  by_cases h₁ : l' = dir
  · subst h₁
    -- the directory itself is not below what is taken out of it
    have hnot : ¬ l' ++ [n] <+: l' := fun hp => by
      have hlen := hp.length_le
      rw [List.length_append, List.length_singleton] at hlen
      omega
    simp [hnot]
  · simp [h₁]

end Provenance.Tree
