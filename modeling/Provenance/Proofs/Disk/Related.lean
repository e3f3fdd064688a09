/-
Disks that are related entry by entry.

A relation between entries is carried over to trees: two trees are related if they have the same
names in the same order, and related entries in the same places. A search looks at names, at
the kinds of entries and at what links lead to. So if related entries are always of one kind, it
comes to the same place in both trees, and a call makes the same change in both or fails on both
in the same way.

How much two disks have in common is then a matter of the relation. It may say no more than that
entries are of one kind, or that all is the same but for certain words in certain files.
-/
import Provenance.Disk.Absolute
import Provenance.Disk.Edits
import Provenance.Proofs.Disk.Tree
import Provenance.Proofs.Lockstep

set_option autoImplicit false

namespace Provenance

/-! ## Kinds -/

namespace Entry

/-- The entry without its content and its time. -/
def kind : Entry → Entry
  | .directory _ => .directory 0
  | .file _ _ => .file [] 0
  | .link target => .link target
  | .special _ => .special 0

@[simp] theorem isDirectory_kind (e : Entry) : e.kind.isDirectory = e.isDirectory := by cases e <;> rfl

@[simp] theorem isFile_kind (e : Entry) : e.kind.isFile = e.isFile := by cases e <;> rfl

@[simp] theorem kind_setTime (e : Entry) (time : Int) : (e.setTime time).kind = e.kind := by
  cases e <;> rfl

end Entry

/-- Related entries are of one kind, and every entry is related to itself. -/
structure Likeness (E : Entry → Entry → Prop) : Prop where
  refl : ∀ e, E e e
  kind_eq : ∀ {e e'}, E e e' → e.kind = e'.kind

/-- Entries that are of one kind. -/
def Entry.SameKind (e e' : Entry) : Prop := e.kind = e'.kind

theorem likeness_sameKind : Likeness Entry.SameKind := ⟨fun _ => rfl, id⟩

variable {E : Entry → Entry → Prop}

/-- Two entries of one kind, constructor by constructor. -/
inductive Entry.Paired : Entry → Entry → Prop
  | directory (time time' : Int) : Paired (.directory time) (.directory time')
  | file (content content' : Bytes) (time time' : Int) :
    Paired (.file content time) (.file content' time')
  | link (target : Path) : Paired (.link target) (.link target)
  | special (time time' : Int) : Paired (.special time) (.special time')

theorem Likeness.paired (hE : Likeness E) {e e' : Entry} (h : E e e') : e.Paired e' := by
  have hkind := hE.kind_eq h
  cases e <;> cases e' <;> simp only [Entry.kind, reduceCtorEq, Entry.link.injEq] at hkind
  case directory => exact .directory ..
  case file => exact .file ..
  case link => exact hkind ▸ .link _
  case special => exact .special ..

theorem Likeness.isDirectory_eq (hE : Likeness E) {e e' : Entry} (h : E e e') :
    e'.isDirectory = e.isDirectory := by
  rw [← Entry.isDirectory_kind, ← hE.kind_eq h, Entry.isDirectory_kind]

/-- Related times can be set to these two. -/
def Stamps (E : Entry → Entry → Prop) (now now' : Int) : Prop :=
  ∀ e e', E e e' → E (e.setTime now) (e'.setTime now')

/-! ## Trees -/

namespace Tree

mutual

/-- The trees have the same names in the same order, and related entries in the same places. -/
inductive Related (E : Entry → Entry → Prop) : Tree → Tree → Prop
  | node {e e' : Entry} {trees trees' : List (Text × Tree)} (he : E e e')
    (htrees : AllRelated E trees trees') : Related E (.node e trees) (.node e' trees')

/-- The trees have the same names, and are related one by one. -/
inductive AllRelated (E : Entry → Entry → Prop) : List (Text × Tree) → List (Text × Tree) → Prop
  | nil : AllRelated E [] []
  | cons (n : Text) {t t' : Tree} {trees trees' : List (Text × Tree)} (ht : Related E t t')
    (htrees : AllRelated E trees trees') : AllRelated E ((n, t) :: trees) ((n, t') :: trees')

end

mutual

theorem related_refl (hE : Likeness E) : (t : Tree) → Related E t t
  | .node e trees => .node (hE.refl e) (allRelated_refl hE trees)

theorem allRelated_refl (hE : Likeness E) : (trees : List (Text × Tree)) → AllRelated E trees trees
  | [] => .nil
  | (n, t) :: trees => .cons n (related_refl hE t) (allRelated_refl hE trees)

end

mutual

/-- Related trees have equally many entries. -/
theorem Related.length_entries :
    {t t' : Tree} → Related E t t' → t'.entries.length = t.entries.length
  | _, _, .node _ htrees => by
    rw [entries, entries, List.length_cons, List.length_cons, htrees.length_entriesBelow]

theorem AllRelated.length_entriesBelow : {trees trees' : List (Text × Tree)} →
    AllRelated E trees trees' → (entriesBelow trees').length = (entriesBelow trees).length
  | _, _, .nil => rfl
  | _, _, .cons n ht htrees => by
    rw [entriesBelow, entriesBelow, List.length_append, List.length_append, List.length_map,
      List.length_map, ht.length_entries, htrees.length_entriesBelow]

end

variable {t t' c c' : Tree} {trees trees' : List (Text × Tree)} {e e' : Entry} {l : Location}

theorem Related.entry (h : Related E t t') : E t.entry t'.entry := by
  cases h with
  | node he _ => exact he

theorem Related.children (h : Related E t t') : AllRelated E t.children t'.children := by
  cases h with
  | node _ htrees => exact htrees

theorem AllRelated.tail (h : AllRelated E trees trees') : AllRelated E trees.tail trees'.tail := by
  cases h with
  | nil => exact .nil
  | cons _ _ htrees => exact htrees

theorem AllRelated.names_eq (h : AllRelated E trees trees') :
    trees'.map Prod.fst = trees.map Prod.fst := by
  induction trees generalizing trees' with
  | nil =>
    cases h
    rfl
  | cons nt trees ih =>
    cases h with
    | cons n _ htrees => rw [List.map_cons, List.map_cons, ih htrees]

theorem AllRelated.lookup (h : AllRelated E trees trees') (n : Text) :
    Option.Rel (Related E) (trees.lookup n) (trees'.lookup n) := by
  induction trees generalizing trees' with
  | nil =>
    cases h
    exact .none
  | cons nt trees ih =>
    cases h with
    | cons k ht htrees =>
      rw [List.lookup_cons, List.lookup_cons]
      cases n == k with
      | true => exact .some ht
      | false => exact ih htrees

theorem AllRelated.setNamed (h : AllRelated E trees trees') (n : Text) (hc : Related E c c') :
    AllRelated E (setNamed n c trees) (setNamed n c' trees') := by
  induction trees generalizing trees' with
  | nil =>
    cases h
    exact .cons n hc .nil
  | cons nt trees ih =>
    cases h with
    | cons k ht htrees =>
      rw [Tree.setNamed, Tree.setNamed]
      split
      · exact .cons k hc htrees
      · exact .cons k ht (ih htrees)

theorem AllRelated.filter (h : AllRelated E trees trees') (n : Text) :
    AllRelated E (trees.filter fun nt => nt.1 ≠ n) (trees'.filter fun nt => nt.1 ≠ n) := by
  induction trees generalizing trees' with
  | nil =>
    cases h
    exact .nil
  | cons nt trees ih =>
    cases h with
    | cons k ht htrees =>
      rw [List.filter_cons, List.filter_cons]
      dsimp only
      split
      · exact .cons k ht (ih htrees)
      · exact ih htrees

theorem Related.child? (h : Related E t t') (n : Text) :
    Option.Rel (Related E) (t.child? n) (t'.child? n) := h.children.lookup n

theorem Related.setChild (h : Related E t t') (n : Text) (hc : Related E c c') :
    Related E (t.setChild n c) (t'.setChild n c') := .node h.entry (h.children.setNamed n hc)

theorem Related.dropChild (h : Related E t t') (n : Text) :
    Related E (t.dropChild n) (t'.dropChild n) := .node h.entry (h.children.filter n)

theorem Related.setEntry (h : Related E t t') (he : E e e') :
    Related E (t.setEntry e) (t'.setEntry e') := .node he h.children

/-! ### What is found -/

theorem Related.at? (h : Related E t t') (l : Location) :
    Option.Rel (Related E) (t.at? l) (t'.at? l) := by
  induction l generalizing t t' with
  | nil => exact .some h
  | cons n l ih =>
    have hchild := h.child? n
    rw [at?_cons, at?_cons]
    generalize t.child? n = x at hchild ⊢
    generalize t'.child? n = y at hchild ⊢
    cases hchild with
    | none => exact .none
    | some hc => exact ih hc

theorem Related.find? (h : Related E t t') (l : Location) :
    Option.Rel E (t.find? l) (t'.find? l) := by
  have hat := h.at? l
  rw [Tree.find?, Tree.find?]
  generalize t.at? l = x at hat ⊢
  generalize t'.at? l = y at hat ⊢
  cases hat with
  | none => exact .none
  | some hc => exact .some hc.entry

theorem Related.isDirectory_eq (hE : Likeness E) (h : Related E t t') (l : Location) :
    t'.isDirectory l = t.isDirectory l := by
  have hfind := h.find? l
  rw [isDirectory, isDirectory]
  generalize t.find? l = x at hfind ⊢
  generalize t'.find? l = y at hfind ⊢
  cases hfind with
  | none => rfl
  | some he => exact hE.isDirectory_eq he

theorem Related.isEmptyAt_eq (h : Related E t t') (l : Location) : t'.isEmptyAt l = t.isEmptyAt l := by
  have hat := h.at? l
  rw [isEmptyAt, isEmptyAt]
  generalize t.at? l = x at hat ⊢
  generalize t'.at? l = y at hat ⊢
  cases hat with
  | none => rfl
  | some hc =>
    rw [Option.all_some, Option.all_some, ← List.isEmpty_map (f := Prod.fst), hc.children.names_eq,
      List.isEmpty_map]

/-- There are the same names in directories in the same place. -/
theorem Related.names_at?_eq (h : Related E t t') (l : Location) :
    (((t'.at? l).map Tree.children).getD []).map Prod.fst
      = (((t.at? l).map Tree.children).getD []).map Prod.fst := by
  have hat := h.at? l
  generalize t.at? l = x at hat ⊢
  generalize t'.at? l = y at hat ⊢
  cases hat with
  | none => rfl
  | some hc => exact hc.children.names_eq

/-! ### What is changed -/

theorem Related.put (h : Related E t t') (l : Location) (he : E e e') :
    Related E (t.put l e) (t'.put l e') := by
  induction l generalizing t t' with
  | nil => exact h.setEntry he
  | cons n l ih =>
    have hchild := h.child? n
    rw [Tree.put.eq_def, Tree.put.eq_def]
    dsimp only
    generalize t.child? n = x at hchild ⊢
    generalize t'.child? n = y at hchild ⊢
    cases hchild with
    | some hc => exact h.setChild n (ih hc)
    | none =>
      cases l with
      | nil => exact h.setChild n (.node he .nil)
      | cons m l => exact h

theorem Related.prune (h : Related E t t') (l : Location) : Related E (t.prune l) (t'.prune l) := by
  induction l generalizing t t' with
  | nil => exact h
  | cons n l ih =>
    cases l with
    | nil => exact h.dropChild n
    | cons m l =>
      have hchild := h.child? n
      rw [Tree.prune.eq_def, Tree.prune.eq_def]
      dsimp only
      generalize t.child? n = x at hchild ⊢
      generalize t'.child? n = y at hchild ⊢
      cases hchild with
      | none => exact h
      | some hc => exact h.setChild n (ih hc)

section Stamps

variable {now now' : Int} (hstamps : Stamps E now now')
include hstamps

theorem Related.stamp (h : Related E t t') (l : Location) :
    Related E (t.stamp l now) (t'.stamp l now') := by
  induction l generalizing t t' with
  | nil => exact h.setEntry (hstamps _ _ h.entry)
  | cons n l ih =>
    have hchild := h.child? n
    rw [Tree.stamp, Tree.stamp]
    generalize t.child? n = x at hchild ⊢
    generalize t'.child? n = y at hchild ⊢
    cases hchild with
    | none => exact h
    | some hc => exact h.setChild n (ih hc)

theorem Related.add (h : Related E t t') (l : Location) (he : E e e') :
    Related E (t.add l e now) (t'.add l e' now') := (h.put l he).stamp hstamps _

theorem Related.remove (h : Related E t t') (l : Location) :
    Related E (t.remove l now) (t'.remove l now') := (h.prune l).stamp hstamps _

end Stamps

end Tree

/-! ## Searches -/

namespace Disk

/-- The same place, with related entries in it. -/
inductive Place.Related (E : Entry → Entry → Prop) : Place → Place → Prop
  | present (l : Location) {e e' : Entry} (h : E e e') : Place.Related E (.present l e) (.present l e')
  | absent (dir : Location) (n : Text) : Place.Related E (.absent dir n) (.absent dir n)

section Search

variable {t t' root root' : Tree} {w w' : Way} (hw : Tree.AllRelated E w w')
include hw

theorem location_eq_of_related : w'.location = w.location := by
  rw [Way.location, Way.location, hw.names_eq]

theorem tree_related (hroot : root.Related E root') : (w.tree root).Related E (w'.tree root') := by
  cases hw with
  | nil => exact hroot
  | cons _ ht _ => exact ht

theorem wayFrom?_related (ht : t.Related E t') (l : Location) :
    Option.Rel (Tree.AllRelated E) (wayFrom? w t l) (wayFrom? w' t' l) := by
  induction l generalizing w w' t t' with
  | nil => exact .some hw
  | cons n l ih =>
    have hchild := ht.child? n
    rw [wayFrom?, wayFrom?]
    generalize t.child? n = x at hchild ⊢
    generalize t'.child? n = y at hchild ⊢
    cases hchild with
    | none => exact .none
    | some hc => exact ih (.cons n hc hw) hc

variable (hE : Likeness E)
include hE

/-- Names lead to the same place, if the names of links do. -/
theorem searchWith_related (hroot : root.Related E root') {follow : Bool}
    {onLink onLink' : Way → List Text → Except Errno Place}
    (honLink : ∀ {w w'}, Tree.AllRelated E w w' → ∀ names,
      Matched (Place.Related E) (onLink w names) (onLink' w' names)) (names : List Text) :
    Matched (Place.Related E) (searchWith root follow onLink w names)
      (searchWith root' follow onLink' w' names) := by
  induction names generalizing w w' with
  | nil =>
    rw [searchWith, searchWith, location_eq_of_related hw]
    exact .ok (.present _ (tree_related hw hroot).entry)
  | cons name rest ih =>
    have ht := tree_related hw hroot
    have hchild := ht.child? name
    rw [searchWith, searchWith, hE.isDirectory_eq ht.entry]
    split
    · exact .error _
    split
    · exact ih hw.tail
    split
    · exact .error _
    generalize (w.tree root).child? name = x at hchild ⊢
    generalize (w'.tree root').child? name = y at hchild ⊢
    cases hchild with
    | none =>
      dsimp only
      rw [location_eq_of_related hw]
      split
      · exact .ok (.absent _ _)
      · exact .error _
    | @some c c' hc =>
      have hrest := ih (.cons name hc hw)
      have hpaired := hE.paired hc.entry
      dsimp only
      generalize c.entry = e at hpaired ⊢
      generalize c'.entry = e' at hpaired ⊢
      -- only links make a difference here, and they lead to the same names
      cases hpaired with
      | link target =>
        dsimp only
        rw [location_eq_of_related hw]
        split
        · exact .ok (.present _ (hE.refl _))
        · refine honLink ?_ _
          unfold targetStart
          split
          · exact .nil
          · exact hw
      | directory | file | special => exact hrest

theorem search_related (hroot : root.Related E root') (follow : Bool) (k : Nat) (names : List Text) :
    Matched (Place.Related E) (search root follow k w names) (search root' follow k w' names) := by
  induction k generalizing w w' names with
  | zero => exact searchWith_related hw hE hroot (fun _ _ => .error _) names
  | succ k ih => exact searchWith_related hw hE hroot (fun hw names => ih hw names) names

end Search

/-! ## Questions -/

/-- The path starts in the same place on both disks: it is absolute, or the current directories are the
same. -/
def SameStart (d d' : Disk) (p : Path) : Prop :=
  p.isAbsolute = true ∨ d'.current = d.current ∧ d'.adrift = d.adrift

variable {d d' : Disk} {p : Path}

theorem SameStart.start?_eq (h : SameStart d d' p) : d'.start? p = d.start? p := by
  rw [start?, start?]
  rcases h with h | ⟨hcurrent, hadrift⟩
  · rw [if_pos h, if_pos h]
  · rw [hcurrent, hadrift]

theorem SameStart.current_eq (h : SameStart d d' p) (hnone : d.start? p = none) :
    d'.current = d.current := by
  rcases h with h | ⟨hcurrent, -⟩
  · rw [start?, if_pos h] at hnone
    exact nomatch hnone
  · exact hcurrent

section Questions

variable (hE : Likeness E) (ht : d.tree.Related E d'.tree) (hp : SameStart d d' p)
include hE ht hp

/-- A path leads to the same place on both disks. -/
theorem place_related (follow : Bool) :
    Matched (Place.Related E) (d.place follow p) (d'.place follow p) := by
  unfold place
  rw [hp.start?_eq]
  split
  · exact .error _
  split
  · rename_i hnone
    rw [hp.current_eq hnone]
    split
    · exact .ok (.present _ (hE.refl _))
    · exact .error _
  · rename_i start names _
    have hway := wayFrom?_related .nil ht start
    generalize wayFrom? [] d.tree start = x at hway ⊢
    generalize wayFrom? [] d'.tree start = y at hway ⊢
    cases hway with
    | none => exact .error _
    | some hw => exact search_related hw hE ht follow _ names

theorem stat_related :
    Matched (fun le le' => le.1 = le'.1 ∧ E le.2 le'.2) (d.stat p) (d'.stat p) := by
  have hplace := place_related hE ht hp true
  unfold stat
  generalize d.place true p = x at hplace ⊢
  generalize d'.place true p = y at hplace ⊢
  cases hplace with
  | error er => exact .error er
  | ok hlike =>
    cases hlike with
    | present l he => exact .ok ⟨rfl, he⟩
    | absent dir n => exact .error _

/-- Questions about the kind of what a path leads to have one answer on both disks. -/
theorem holds_eq_of_related {q : Entry → Bool} (hq : ∀ e, q e.kind = q e) :
    d'.holds p q = d.holds p q := by
  have hstat := stat_related hE ht hp
  unfold holds
  generalize d.stat p = x at hstat ⊢
  generalize d'.stat p = y at hstat ⊢
  cases hstat with
  | error er => rfl
  | ok hle =>
    dsimp only
    rw [← hq, ← hE.kind_eq hle.2, hq]

end Questions

/-! ## Calls -/

/-- Both disks have been changed alike: they have related trees now, or are what they were. -/
inductive Changed (E : Entry → Entry → Prop) (d d' : Disk) : Disk → Disk → Prop
  | same : Changed E d d' d d'
  | tree {t t' : Tree} (h : t.Related E t') : Changed E d d' (d.withTree t) (d'.withTree t')

section Calls

variable (hE : Likeness E) (ht : d.tree.Related E d'.tree) (hp : SameStart d d' p) {now now' : Int}
  (hstamps : Stamps E now now')
include hE ht hp hstamps

/-- What is made is made on both disks or on neither. -/
theorem make_related {e e' : Entry} (he : E e e') :
    Matched (Changed E d d') (d.make p e now) (d'.make p e' now') := by
  have hplace := place_related hE ht hp false
  unfold make
  generalize d.place false p = x at hplace ⊢
  generalize d'.place false p = y at hplace ⊢
  cases hplace with
  | error er => exact .error er
  | ok hlike =>
    cases hlike with
    | present l _ => exact .error _
    | absent dir n => exact .ok (.tree (ht.add hstamps _ he))

theorem unlink_related : Matched (Changed E d d') (d.unlink p now) (d'.unlink p now') := by
  have hplace := place_related hE ht hp false
  unfold unlink
  generalize d.place false p = x at hplace ⊢
  generalize d'.place false p = y at hplace ⊢
  cases hplace with
  | error er => exact .error er
  | ok hlike =>
    cases hlike with
    | absent dir n => exact .error _
    | @present l e e' he =>
      cases hE.paired he with
      | directory => exact .error _
      | file | link | special => exact .ok (.tree (ht.remove hstamps l))

theorem removeDirectory_related :
    Matched (Changed E d d') (d.removeDirectory p now) (d'.removeDirectory p now') := by
  have hplace := place_related hE ht hp false
  unfold removeDirectory
  generalize d.place false p = x at hplace ⊢
  generalize d'.place false p = y at hplace ⊢
  cases hplace with
  | error er => exact .error er
  | ok hlike =>
    cases hlike with
    | absent dir n => exact .error _
    | @present l e e' he =>
      cases hE.paired he with
      | directory =>
        dsimp only
        rw [ht.isEmptyAt_eq]
        split
        · exact .error _
        split
        · exact .error _
        split
        · exact .error _
        split
        · exact .ok (.tree (ht.remove hstamps l))
        · exact .error _
      | file | link | special => exact .error _

theorem setTime_related : Matched (Changed E d d') (d.setTime p now) (d'.setTime p now') := by
  have hstat := stat_related hE ht hp
  unfold setTime
  generalize d.stat p = x at hstat ⊢
  generalize d'.stat p = y at hstat ⊢
  cases hstat with
  | error er => exact .error er
  | @ok le le' hle =>
    obtain ⟨l, e⟩ := le
    obtain ⟨l', e'⟩ := le'
    obtain ⟨rfl, -⟩ := hle
    exact .ok (.tree (ht.stamp hstamps l))

/-- What is written to a file of its own or at the end of one is written on both disks or on neither. -/
theorem append_related {bytes bytes' : Bytes} (hnew : E (.file bytes now) (.file bytes' now'))
    (hend : ∀ content time content' time', E (.file content time) (.file content' time') →
      E (.file (content ++ bytes) now) (.file (content' ++ bytes') now')) :
    Matched (Changed E d d') (d.append p bytes now) (d'.append p bytes' now') := by
  have hplace := place_related hE ht hp true
  unfold append
  generalize d.place true p = x at hplace ⊢
  generalize d'.place true p = y at hplace ⊢
  cases hplace with
  | error er => exact .error er
  | ok hlike =>
    cases hlike with
    | absent dir n => exact .ok (.tree (ht.add hstamps _ hnew))
    | @present l e e' he =>
      cases hE.paired he with
      | file => exact .ok (.tree (ht.put l (hend _ _ _ _ he)))
      | directory => exact .error _
      | link | special => exact .ok .same

/-! ### Edits by hand -/

/-- The content of a file is written on both disks or on neither. -/
theorem write_related {content content' : Bytes} (hnew : E (.file content now) (.file content' now')) :
    Matched (Changed E d d') (d.write p content now) (d'.write p content' now') := by
  have hplace := place_related hE ht hp true
  unfold write
  generalize d.place true p = x at hplace ⊢
  generalize d'.place true p = y at hplace ⊢
  cases hplace with
  | error er => exact .error er
  | ok hlike =>
    cases hlike with
    | absent dir n => exact .ok (.tree (ht.add hstamps _ hnew))
    | @present l e e' he =>
      cases hE.paired he with
      | file => exact .ok (.tree (ht.put l hnew))
      | directory => exact .error _
      | link | special => exact .ok .same

/-- What is in a directory is removed on both disks, as it has the same names in it. -/
theorem clear_related : Matched (Changed E d d') (d.clear p now) (d'.clear p now') := by
  have hplace := place_related hE ht hp false
  unfold clear
  generalize d.place false p = x at hplace ⊢
  generalize d'.place false p = y at hplace ⊢
  cases hplace with
  | error er => exact .error er
  | ok hlike =>
    cases hlike with
    | absent dir n => exact .error _
    | @present l e e' he =>
      cases hE.paired he with
      | directory =>
        dsimp only
        rw [ht.names_at?_eq]
        refine .ok (.tree ?_)
        generalize List.map Prod.fst _ = names
        generalize d.tree = t at ht ⊢
        generalize d'.tree = t' at ht ⊢
        induction names generalizing t t' with
        | nil => exact ht
        | cons n names ih => exact ih _ _ (ht.remove hstamps _)
      | file | link | special => exact .ok .same

theorem remove_related : Matched (Changed E d d') (d.remove p now) (d'.remove p now') := by
  have hplace := place_related hE ht hp false
  have hunlink := unlink_related hE ht hp hstamps
  have hdirectory := removeDirectory_related hE ht hp hstamps
  unfold remove
  generalize d.place false p = x at hplace ⊢
  generalize d'.place false p = y at hplace ⊢
  cases hplace with
  | error er => exact hunlink
  | ok hlike =>
    cases hlike with
    | absent dir n => exact hunlink
    | @present l e e' he =>
      cases hE.paired he with
      | directory => exact hdirectory
      | file | link | special => exact hunlink

end Calls

/-! ## Absolute paths -/

section Absolute

variable (hcurrent : d'.current = d.current) (hadrift : d'.adrift = d.adrift) (hE : Likeness E)
  (ht : d.tree.Related E d'.tree)
include hcurrent hadrift

theorem locationOf_eq_of_related (p : Path) : d'.locationOf p = d.locationOf p := by
  rw [locationOf, locationOf, SameStart.start?_eq (.inr ⟨hcurrent, hadrift⟩)]

include hE ht

/-- Names go through the same links. -/
theorem canonicalWith_eq_of_related {onLink : Links → Path → List Text → Canonical} (names : List Text)
    (links : Links) (p : Path) :
    canonicalWith d' onLink links p names = canonicalWith d onLink links p names := by
  induction names generalizing links p with
  | nil => rfl
  | cons name rest ih =>
    unfold canonicalWith
    simp only [ih]
    rw [locationOf_eq_of_related hcurrent hadrift]
    cases d.locationOf (p.child name) with
    | none => rfl
    | some l =>
      rw [Option.bind_some, Option.bind_some]
      have hfind := ht.find? l
      generalize d.tree.find? l = x at hfind ⊢
      generalize d'.tree.find? l = y at hfind ⊢
      cases hfind with
      | none => rfl
      | @some e e' he =>
        -- a link is the only entry that is gone through
        cases hE.paired he <;> rfl

theorem canonical_eq_of_related (k : Nat) : canonical d' k = canonical d k := by
  have hwith : ∀ onLink, canonicalWith d' onLink = canonicalWith d onLink := fun onLink =>
    funext fun links => funext fun p => funext fun names =>
      canonicalWith_eq_of_related hcurrent hadrift hE ht names links p
  induction k with
  | zero => exact hwith _
  | succ k ih => rw [canonical, canonical, ih, hwith]

/-- A path stands for the same absolute path on both disks. -/
theorem absolute_eq_of_related (p : Path) : d'.absolute p = d.absolute p := by
  have hresolve : d'.resolve p = d.resolve p := by
    unfold resolve
    simp only [ht.length_entries, canonical_eq_of_related hcurrent hadrift hE ht,
      locationOf_eq_of_related hcurrent hadrift, hadrift]
    split
    · rename_i l _ _
      have hstat := stat_related hE ht (p := ⟨.root, l⟩) (.inl rfl)
      generalize d.stat ⟨.root, l⟩ = x at hstat ⊢
      generalize d'.stat ⟨.root, l⟩ = y at hstat ⊢
      cases hstat with
      | error er => rfl
      | ok _ => rfl
    · rfl
  rw [absolute, absolute, hresolve]

end Absolute

end Disk

end Provenance
