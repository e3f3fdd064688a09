/-
What a tree holds, times aside.

Updates move times in many places, and hardly anything depends on them. The
shape of a tree tells what each location holds with all times taken to be the
same: the kinds of the entries, the contents of the files and the targets of the
links. Two trees of one shape are alike for every search, and the equations here
tell what becomes of the shape when one entry is added, taken away or stamped.
-/
import Provenance.Proofs.Disk.Search

set_option autoImplicit false

namespace Provenance

/-! ## Entries -/

namespace Entry

/-- The entry without its time. -/
def timeless (e : Entry) : Entry := e.setTime 0

@[simp] theorem timeless_setTime (e : Entry) (time : Int) :
    (e.setTime time).timeless = e.timeless := by cases e <;> rfl

@[simp] theorem timeless_directory (time : Int) : (directory time).timeless = directory 0 := rfl

@[simp] theorem timeless_file (content : Bytes) (time : Int) :
    (file content time).timeless = file content 0 := rfl

@[simp] theorem timeless_link (target : Path) : (link target).timeless = link target := rfl

@[simp] theorem isDirectory_setTime (e : Entry) (time : Int) :
    (e.setTime time).isDirectory = e.isDirectory := by cases e <;> rfl

@[simp] theorem isDirectory_timeless (e : Entry) : e.timeless.isDirectory = e.isDirectory :=
  isDirectory_setTime e 0

@[simp] theorem isFile_timeless (e : Entry) : e.timeless.isFile = e.isFile := by cases e <;> rfl

@[simp] theorem isLink_timeless (e : Entry) : e.timeless.isLink = e.isLink := by cases e <;> rfl

end Entry

namespace Tree

variable {t t' t'' : Tree} {l l' dir : Location} {n : Text} {e : Entry}

/-! ## Shapes -/

/-- What a location holds, its time aside. -/
def shape (t : Tree) (l : Location) : Option Entry := (t.find? l).map Entry.timeless

theorem shape_of_find? (h : t.find? l = some e) : t.shape l = some e.timeless := by
  simp [shape, h]

@[simp] theorem shape_eq_none_iff : t.shape l = none ↔ t.find? l = none := by simp [shape]

theorem isSome_iff_shape : (t.find? l).isSome ↔ t.shape l ≠ none := by
  rw [ne_eq, shape_eq_none_iff, Option.isSome_iff_ne_none]

theorem isDirectory_iff_shape : t.isDirectory l = true ↔ t.shape l = some (.directory 0) := by
  rw [isDirectory, shape]
  cases t.find? l with
  | none => simp
  | some e => cases e <;> simp [Entry.isDirectory, Entry.timeless, Entry.setTime]

theorem link_iff_shape {target : Path} :
    t.find? l = some (.link target) ↔ t.shape l = some (.link target) := by
  unfold shape
  cases t.find? l with
  | none => simp
  | some e => cases e <;> simp [Entry.timeless, Entry.setTime]

/-- Whether a file is at a location is a matter of the shape. -/
theorem isFile_iff_shape :
    (t.find? l).any Entry.isFile = true ↔ ∃ content, t.shape l = some (.file content 0) := by
  unfold shape
  cases t.find? l with
  | none => simp
  | some e => cases e <;> simp [Entry.isFile, Entry.timeless, Entry.setTime]

/-- Stamping leaves the shape as it is. -/
@[simp] theorem shape_stamp (t : Tree) (l : Location) (time : Int) (l' : Location) :
    (t.stamp l time).shape l' = t.shape l' := by
  rw [shape, find?_stamp]
  split
  · cases h : t.find? l' <;> simp [shape, h]
  · rfl

theorem shape_put (h : l = [] ∨ (t.find? l.dropLast).isSome) (e : Entry) (l' : Location) :
    (t.put l e).shape l' = if l' = l then some e.timeless else t.shape l' := by
  rw [shape, find?_put h]
  split <;> rfl

theorem shape_add (h : (t.find? dir).isSome) (n : Text) (e : Entry) (now : Int) (l' : Location) :
    (t.add (dir ++ [n]) e now).shape l'
      = if l' = dir ++ [n] then some e.timeless else t.shape l' := by
  rw [add, shape_stamp]
  exact shape_put (.inr (by simpa using h)) e l'

theorem shape_remove (t : Tree) (dir : Location) (n : Text) (now : Int) (l' : Location) :
    (t.remove (dir ++ [n]) now).shape l'
      = if dir ++ [n] <+: l' then none else t.shape l' := by
  rw [remove, shape_stamp, shape, find?_prune (by simp)]
  split <;> rfl

/-- Taking away what has nothing below it takes away one entry. -/
theorem shape_remove_of_empty (h : t.isEmptyAt (dir ++ [n]) = true) (now : Int) (l' : Location) :
    (t.remove (dir ++ [n]) now).shape l' = if l' = dir ++ [n] then none else t.shape l' := by
  rw [shape_remove]
  by_cases hl : l' = dir ++ [n]
  · simp [hl]
  · rw [if_neg hl]
    split
    -- a location below the one that is gone held nothing before either
    · rename_i hp
      obtain ⟨m, rfl⟩ := hp
      cases m with
      | nil => simp at hl
      | cons k m => exact (shape_eq_none_iff.mpr (find?_below_of_isEmptyAt h k m)).symm
    · rfl

/-- Only a directory has anything in it. -/
theorem Legal.isEmptyAt (ht : t.Legal) (h : t.isDirectory l = false) : t.isEmptyAt l = true := by
  refine isEmptyAt_of_find?_none fun n => ?_
  rcases hf : t.find? (l ++ [n]) with _ | e
  · rfl
  · have hd := ht.isDirectory_of_below (l := l) (m := [n]) (by simp) (by simp [hf])
    simp [hd] at h

/-! ## Keeping -/

/-- Everything that a tree holds is still there in another one, times aside. -/
def Keeps (t t' : Tree) : Prop := ∀ l e, t.shape l = some e → t'.shape l = some e

theorem Keeps.refl (t : Tree) : Keeps t t := fun _ _ h => h

theorem Keeps.trans (h : Keeps t t') (h' : Keeps t' t'') : Keeps t t'' :=
  fun l e hl => h' l e (h l e hl)

theorem keeps_of_shape_eq (h : ∀ l, t'.shape l = t.shape l) : Keeps t t' :=
  fun l _ hl => (h l).trans hl

theorem keeps_add (h : (t.find? dir).isSome) (hfree : t.find? (dir ++ [n]) = none) (e : Entry)
    (now : Int) : Keeps t (t.add (dir ++ [n]) e now) := by
  intro l' e' hl'
  rw [shape_add h]
  split
  · rename_i heq
    rw [heq, shape_eq_none_iff.mpr hfree] at hl'
    simp at hl'
  · exact hl'

/-- What is kept can still be gone through. -/
theorem Keeps.passable (h : Keeps t t') : Disk.Passable t t' where
  directory l hl := isDirectory_iff_shape.mpr (h l _ (isDirectory_iff_shape.mp hl))
  link l _ hl := link_iff_shape.mpr (h l _ (link_iff_shape.mp hl))

/-- A change at one location can be gone past if there was nothing to go through. -/
theorem passable_of_changed {x : Location} (hs : ∀ y, y ≠ x → t'.shape y = t.shape y)
    (hx : ∀ e, t.shape x = some e → e.isDirectory = false ∧ e.isLink = false) :
    Disk.Passable t t' where
  directory y hy := by
    rw [isDirectory_iff_shape] at hy ⊢
    rw [hs y, hy]
    rintro rfl
    simp [Entry.isDirectory] at hx hy
    simpa [Entry.isDirectory] using (hx _ hy).1
  link y target hy := by
    rw [link_iff_shape] at hy ⊢
    rw [hs y, hy]
    rintro rfl
    simpa [Entry.isLink] using (hx _ hy).2

/-- Walks go on where a file gets another content. -/
theorem passable_put_file {x : Location} {content : Bytes} {time : Int}
    (hparent : x = [] ∨ (t.find? x.dropLast).isSome) (hold : t.find? x = some (.file content time))
    (bytes : Bytes) (now : Int) : Disk.Passable t (t.put x (.file bytes now)) :=
  passable_of_changed (fun y hy => by rw [shape_put hparent, if_neg hy]) fun e he => by
    rw [shape_of_find? hold, Option.some.injEq] at he
    simp [← he, Entry.isDirectory, Entry.isLink]

end Tree

end Provenance
