/-
Disks that differ in times and contents alone.

What a search comes to, what a call on a disk does and what a listing shows depend on
which entries there are and of which kind they are, and on nothing else: not on when
they were changed, nor on what is in the files. The skeleton of a tree is what is left
of it without either. Every call takes disks of one skeleton to disks of one skeleton,
or fails on both in the same way.

The order of the trees in a directory is part of the skeleton, since directories are
listed in it.
-/
import Provenance.Proofs.Disk.Calls
import Provenance.Proofs.Disk.Related
import Provenance.Proofs.Order

set_option autoImplicit false

namespace Provenance

/-! ## Skeletons -/

namespace Tree

mutual

/-- The tree with the kinds of its entries. -/
def skeleton : Tree → Tree
  | node e trees => node e.kind (skeletons trees)

/-- The skeletons of trees. -/
def skeletons : List (Text × Tree) → List (Text × Tree)
  | [] => []
  | (n, t) :: rest => (n, t.skeleton) :: skeletons rest

end

variable {t t' : Tree} {l : Location} {n : Text} {e : Entry} {trees : List (Text × Tree)}

@[simp] theorem entry_skeleton (t : Tree) : t.skeleton.entry = t.entry.kind := by
  cases t
  rfl

@[simp] theorem children_skeleton (t : Tree) : t.skeleton.children = skeletons t.children := by
  cases t
  rfl

theorem lookup_skeletons (n : Text) (trees : List (Text × Tree)) :
    (skeletons trees).lookup n = (trees.lookup n).map skeleton := by
  induction trees with
  | nil => rfl
  | cons kt rest ih =>
    obtain ⟨k, t⟩ := kt
    rw [skeletons, List.lookup_cons, List.lookup_cons]
    cases n == k with
    | true => rfl
    | false => exact ih

theorem skeletons_setNamed (n : Text) (t : Tree) (trees : List (Text × Tree)) :
    skeletons (setNamed n t trees) = setNamed n t.skeleton (skeletons trees) := by
  induction trees with
  | nil => rfl
  | cons kc rest ih =>
    obtain ⟨k, c⟩ := kc
    by_cases hk : k = n
    · simp [setNamed, skeletons, hk]
    · simp [setNamed, skeletons, hk, ih]

/-- What is set in its own place changes nothing. -/
theorem setNamed_of_lookup (h : trees.lookup n = some t) : setNamed n t trees = trees := by
  induction trees with
  | nil => simp at h
  | cons kc rest ih =>
    obtain ⟨k, c⟩ := kc
    rw [List.lookup_cons] at h
    by_cases hk : k = n
    · subst hk
      rw [beq_self_eq_true] at h
      rw [setNamed, if_pos rfl, Option.some.inj h]
    · rw [beq_eq_false_iff_ne.mpr (Ne.symm hk)] at h
      rw [setNamed, if_neg hk, ih h]

@[simp] theorem child?_skeleton (t : Tree) (n : Text) :
    t.skeleton.child? n = (t.child? n).map skeleton := by
  rw [child?, children_skeleton, lookup_skeletons, child?]

theorem skeleton_setChild (t : Tree) (n : Text) (c : Tree) :
    (t.setChild n c).skeleton = t.skeleton.setChild n c.skeleton := by
  obtain ⟨e, trees⟩ := t
  rw [setChild, skeleton, skeletons_setNamed]
  rfl

/-- A tree has the skeleton of a tree that one of its own trees has been replaced in by one of the same
skeleton. -/
theorem skeleton_setChild_of_child (hc : t.child? n = some t') {c : Tree}
    (h : c.skeleton = t'.skeleton) : (t.setChild n c).skeleton = t.skeleton := by
  have hlookup : (skeletons t.children).lookup n = some c.skeleton := by
    rw [lookup_skeletons, show t.children.lookup n = some t' from hc, h]
    rfl
  obtain ⟨e, trees⟩ := t
  rw [skeleton_setChild, setChild, children_skeleton, setNamed_of_lookup hlookup]
  rfl

/-! ## Related trees -/

mutual

/-- Trees whose entries are related have one skeleton. -/
theorem Related.skeleton_eq {E : Entry → Entry → Prop} (hE : Likeness E) :
    {t t' : Tree} → Related E t t' → t.skeleton = t'.skeleton
  | _, _, .node he htrees => by rw [skeleton, skeleton, hE.kind_eq he, htrees.skeletons_eq hE]

theorem AllRelated.skeletons_eq {E : Entry → Entry → Prop} (hE : Likeness E) :
    {trees trees' : List (Text × Tree)} → AllRelated E trees trees' → skeletons trees = skeletons trees'
  | _, _, .nil => rfl
  | _, _, .cons n ht htrees => by
    rw [skeletons, skeletons, ht.skeleton_eq hE, htrees.skeletons_eq hE]

end

mutual

/-- Trees of one skeleton have entries of one kind in the same places. -/
theorem related_of_skeleton :
    {t t' : Tree} → t.skeleton = t'.skeleton → Related Entry.SameKind t t'
  | .node e trees, .node e' trees', h => by
    rw [skeleton, skeleton] at h
    obtain ⟨hkind, htrees⟩ := Tree.node.inj h
    exact .node hkind (allRelated_of_skeletons htrees)

theorem allRelated_of_skeletons : {trees trees' : List (Text × Tree)} →
    skeletons trees = skeletons trees' → AllRelated Entry.SameKind trees trees'
  | [], [], _ => .nil
  | [], _ :: _, h => nomatch h
  | _ :: _, [], h => nomatch h
  | (n, t) :: trees, (n', t') :: trees', h => by
    rw [skeletons, skeletons] at h
    obtain ⟨hfirst, hrest⟩ := List.cons.inj h
    obtain ⟨rfl, ht⟩ := Prod.mk.inj hfirst
    exact .cons n (related_of_skeleton ht) (allRelated_of_skeletons hrest)

end

/-! ## What is found -/

theorem at?_skeleton (t : Tree) (l : Location) : t.skeleton.at? l = (t.at? l).map skeleton := by
  induction l generalizing t with
  | nil => rfl
  | cons n l ih =>
    rw [at?_cons, at?_cons, child?_skeleton]
    cases t.child? n with
    | none => rfl
    | some c => exact ih c

theorem find?_skeleton (t : Tree) (l : Location) : t.skeleton.find? l = (t.find? l).map Entry.kind := by
  rw [find?, at?_skeleton, find?]
  cases t.at? l with
  | none => rfl
  | some c => simp

theorem isEmptyAt_skeleton (t : Tree) (l : Location) : t.skeleton.isEmptyAt l = t.isEmptyAt l := by
  rw [isEmptyAt, at?_skeleton, isEmptyAt]
  rcases t.at? l with _ | ⟨e, trees⟩
  · rfl
  · cases trees <;> rfl

/-! ## What is changed -/

theorem skeleton_stamp (t : Tree) (l : Location) (time : Int) :
    (t.stamp l time).skeleton = t.skeleton := by
  induction l generalizing t with
  | nil =>
    obtain ⟨e, trees⟩ := t
    show node (e.setTime time).kind (skeletons trees) = node e.kind (skeletons trees)
    rw [Entry.kind_setTime]
  | cons n l ih =>
    rw [stamp]
    rcases hc : t.child? n with _ | c
    · rfl
    · exact skeleton_setChild_of_child hc (ih c)

/-! ## What is listed -/

mutual

theorem directories_skeleton : (t : Tree) → t.skeleton.directories = t.directories
  | node _ trees => directoriesAmong_skeletons trees

theorem directoriesAmong_skeletons :
    (trees : List (Text × Tree)) → directoriesAmong (skeletons trees) = directoriesAmong trees
  | [] => rfl
  | (n, t) :: rest => by
    rw [skeletons, directoriesAmong, directoriesAmong, directoriesAmong_skeletons rest,
      directories_skeleton t, entry_skeleton, Entry.isDirectory_kind]

end

/-- A listed entry, with the kind of the entry in its place. -/
def kindAt (le : List Text × Entry) : List Text × Entry := (le.1, le.2.kind)

mutual

theorem entries_skeleton : (t : Tree) → t.skeleton.entries = t.entries.map kindAt
  | node e trees => by
    rw [skeleton, entries, entries, entriesBelow_skeletons trees, List.map_cons, kindAt]

theorem entriesBelow_skeletons :
    (trees : List (Text × Tree)) → entriesBelow (skeletons trees) = (entriesBelow trees).map kindAt
  | [] => rfl
  | (n, t) :: rest => by
    rw [skeletons, entriesBelow, entriesBelow, entriesBelow_skeletons rest, entries_skeleton t,
      List.map_append, List.map_map, List.map_map]
    rfl

end

end Tree

theorem Tree.inside_skeleton (t : Tree) (l : Location) :
    t.skeleton.inside l = (t.inside l).map kindAt := by
  rw [inside, at?_skeleton, inside]
  rcases t.at? l with _ | c
  · rfl
  · show sortOn Prod.fst (entriesBelow c.skeleton.children) = _
    rw [children_skeleton, entriesBelow_skeletons]
    exact sortBy_map (fun _ _ => rfl) _

namespace Tree

variable {xs ys : List (List Text × Entry)} {q : List Text × Entry → Bool}

/-- Entries are chosen by their names and kinds. -/
theorem filter_kindAt (h : xs.map kindAt = ys.map kindAt) (hq : ∀ ne, q (kindAt ne) = q ne) :
    (xs.filter q).map kindAt = (ys.filter q).map kindAt := by
  have hcomp : q ∘ kindAt = q := funext hq
  have hmap := congrArg (List.filter q) h
  rwa [List.filter_map, List.filter_map, hcomp] at hmap

/-- What is shown of entries that are chosen by their names and kinds, if that is their names. -/
theorem shown_eq {α : Type} {g : List Text → α} (h : xs.map kindAt = ys.map kindAt)
    (hq : ∀ ne, q (kindAt ne) = q ne) :
    (xs.filter q).map (fun ne => g ne.1) = (ys.filter q).map fun ne => g ne.1 := by
  have hmap := congrArg (List.map fun ne => g ne.1) (filter_kindAt h hq)
  rwa [List.map_map, List.map_map] at hmap

end Tree

/-! ## Searches -/

namespace Disk

/-- The same place, up to the content and the time of what is there. -/
inductive Place.Like : Place → Place → Prop
  | present {l : Location} {e e' : Entry} (h : e.kind = e'.kind) :
    Place.Like (.present l e) (.present l e')
  | absent (dir : Location) (n : Text) : Place.Like (.absent dir n) (.absent dir n)

variable {t t' : Tree} {d d' : Disk} {p : Path}

/-- Trees of one skeleton have entries of the same kind at each location. -/
theorem find?_kind (h : t.skeleton = t'.skeleton) (l : Location) :
    (t.find? l).map Entry.kind = (t'.find? l).map Entry.kind := by
  rw [← Tree.find?_skeleton, h, Tree.find?_skeleton]

/-- An absolute path leads to the same place on disks of one skeleton. -/
theorem place_like (follow : Bool) (hp : p.isAbsolute = true) (h : d.tree.skeleton = d'.tree.skeleton) :
    Matched Place.Like (d.place follow p) (d'.place follow p) := by
  refine (place_related likeness_sameKind (Tree.related_of_skeleton h) (.inl hp) follow).imp ?_
  rintro _ _ (⟨l, hkind⟩ | ⟨dir, n⟩)
  · exact .present hkind
  · exact .absent dir n

theorem stat_like (hp : p.isAbsolute = true) (h : d.tree.skeleton = d'.tree.skeleton) :
    Matched (fun le le' => le.1 = le'.1 ∧ le.2.kind = le'.2.kind) (d.stat p) (d'.stat p) :=
  stat_related likeness_sameKind (Tree.related_of_skeleton h) (.inl hp)

/-- Questions about the kind of what a path leads to have one answer on both disks. -/
theorem holds_like (hp : p.isAbsolute = true) (h : d.tree.skeleton = d'.tree.skeleton)
    {q : Entry → Bool} (hq : ∀ e, q e.kind = q e) : d.holds p q = d'.holds p q :=
  (holds_eq_of_related likeness_sameKind (Tree.related_of_skeleton h) (.inl hp) hq).symm

/-! ## Calls -/

/-- The trees of the two disks have one skeleton. -/
def Alike (d d' : Disk) : Prop := d.tree.skeleton = d'.tree.skeleton

/-- What is changed alike on alike disks leaves alike disks. -/
theorem Alike.changed (h : d.Alike d') {d₁ d₁' : Disk} (hc : Changed Entry.SameKind d d' d₁ d₁') :
    d₁.Alike d₁' := by
  cases hc with
  | same => exact h
  | tree ht => exact ht.skeleton_eq likeness_sameKind

/-- Any times can be set to entries of one kind. -/
theorem stamps_sameKind (now now' : Int) : Stamps Entry.SameKind now now' := fun e e' he => by
  rw [Entry.SameKind, Entry.kind_setTime, Entry.kind_setTime]
  exact he

variable (hp : p.isAbsolute = true) (h : d.Alike d')
include hp h

theorem createFile_like (now now' : Int) : Matched Alike (d.createFile p now) (d'.createFile p now') :=
  (make_related likeness_sameKind (Tree.related_of_skeleton h) (.inl hp) (stamps_sameKind now now')
    (show Entry.SameKind (.file [] now) (.file [] now') from rfl)).imp fun _ _ => h.changed

theorem makeDirectory_like (now now' : Int) :
    Matched Alike (d.makeDirectory p now) (d'.makeDirectory p now') :=
  (make_related likeness_sameKind (Tree.related_of_skeleton h) (.inl hp) (stamps_sameKind now now')
    (show Entry.SameKind (.directory now) (.directory now') from rfl)).imp fun _ _ => h.changed

theorem unlink_like (now now' : Int) : Matched Alike (d.unlink p now) (d'.unlink p now') :=
  (unlink_related likeness_sameKind (Tree.related_of_skeleton h) (.inl hp)
    (stamps_sameKind now now')).imp fun _ _ => h.changed

theorem removeDirectory_like (now now' : Int) :
    Matched Alike (d.removeDirectory p now) (d'.removeDirectory p now') :=
  (removeDirectory_related likeness_sameKind (Tree.related_of_skeleton h) (.inl hp)
    (stamps_sameKind now now')).imp fun _ _ => h.changed

/-- Text can be appended on both disks or on neither, whatever the text is. -/
theorem append_like (bytes bytes' : Bytes) (now now' : Int) :
    Matched Alike (d.append p bytes now) (d'.append p bytes' now') :=
  (append_related likeness_sameKind (Tree.related_of_skeleton h) (.inl hp) (stamps_sameKind now now')
    rfl fun _ _ _ _ _ => rfl).imp fun _ _ => h.changed

omit hp h in
/-- Setting a time leaves the skeleton as it is. -/
theorem setTime_alike {time : Int} (hset : d.setTime p time = .ok d') : d.Alike d' := by
  obtain ⟨l, e, -, rfl⟩ := setTime_ok hset
  exact (Tree.skeleton_stamp d.tree l time).symm

end Disk

end Provenance
