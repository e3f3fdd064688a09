/-
Legal disks.

Any tree of values can be written down, but not every one is a tree of files: in
one that is, only directories have something in them, no directory has a name
twice, a name has no slash in it and is neither a dot nor two, and a link spells a
path. A disk is legal when its tree is, and its current directory is in the tree
unless it has been removed.

Every call that changes a disk leaves a legal disk behind. The conditions are
stated node by node, since a change rebuilds the nodes on its way one by one.
-/
import Provenance.Disk.Edits
import Provenance.Proofs.Disk.Tree
import Provenance.Proofs.Path

set_option autoImplicit false

namespace Provenance

namespace Tree

variable {t : Tree} {l : Location} {n : Text} {e : Entry}

/-! ## Nodes -/

/-- What holds at a node of a legal tree. -/
structure NodeLegal (t : Tree) : Prop where
  directory : t.children ≠ [] → t.entry.isDirectory = true
  nodup : (t.children.map Prod.fst).Nodup
  names : ∀ n ∈ t.children.map Prod.fst, Path.IsName n
  target : ∀ p, t.entry = .link p → ∀ n ∈ p.names, Path.IsPiece n

/-- What holds at all nodes of a legal tree. -/
def AllLegal (t : Tree) : Prop := ∀ l d, t.at? l = some d → d.NodeLegal

theorem AllLegal.node (h : t.AllLegal) : t.NodeLegal := h [] t rfl

theorem AllLegal.child (h : t.AllLegal) {c : Tree} (hc : t.child? n = some c) : c.AllLegal :=
  fun l d hd => h (n :: l) d (by rw [at?_cons, hc]; exact hd)

theorem allLegal_of (h : t.NodeLegal) (hc : ∀ n c, t.child? n = some c → c.AllLegal) :
    t.AllLegal := by
  intro l d hd
  -- the root itself, or a location below one of its children
  cases l with
  | nil =>
    obtain rfl : t = d := by simpa using hd
    exact h
  | cons n l =>
    rw [at?_cons] at hd
    cases hn : t.child? n with
    | none => simp [hn] at hd
    | some c => exact hc n c hn l d (by simpa [hn] using hd)

theorem nodeLegal_leaf (ht : ∀ p, e = .link p → ∀ n ∈ p.names, Path.IsPiece n) :
    (leaf e).NodeLegal :=
  ⟨fun h => absurd rfl h, List.nodup_nil, by simp [leaf, children], ht⟩

theorem allLegal_leaf (ht : ∀ p, e = .link p → ∀ n ∈ p.names, Path.IsPiece n) :
    (leaf e).AllLegal :=
  allLegal_of (nodeLegal_leaf ht) (by simp)

theorem mem_children_of_child? {c : Tree} (h : t.child? n = some c) :
    (n, c) ∈ t.children := by
  unfold child? at h
  generalize t.children = trees at h ⊢
  induction trees with
  | nil => simp at h
  | cons kt rest ih =>
    obtain ⟨k, d⟩ := kt
    rw [List.lookup_cons] at h
    split at h
    · rename_i hk
      have hnk : n = k := by simpa using hk
      have hdc : d = c := by simpa using h
      simp [hnk, hdc]
    · exact List.mem_cons_of_mem _ (ih h)

theorem NodeLegal.isDirectory_of_child (h : t.NodeLegal) {c : Tree} (hc : t.child? n = some c) :
    t.entry.isDirectory = true :=
  h.directory (List.ne_nil_of_mem (mem_children_of_child? hc))

/-- Names after a child has been set: as before, or with the new one at the end. -/
theorem names_setNamed (n : Text) (c : Tree) (trees : List (Text × Tree)) :
    (setNamed n c trees).map Prod.fst
      = if n ∈ trees.map Prod.fst then trees.map Prod.fst else trees.map Prod.fst ++ [n] := by
  induction trees with
  | nil => simp [setNamed]
  | cons kt rest ih =>
    obtain ⟨k, d⟩ := kt
    unfold setNamed
    -- the name stands here, further on, or nowhere
    by_cases hk : k = n
    · simp [hk]
    · by_cases hn : n ∈ rest.map Prod.fst
      · rw [if_pos hn] at ih
        rw [if_neg hk, if_pos (by simp only [List.map_cons, List.mem_cons]; exact .inr hn)]
        simp only [List.map_cons, ih]
      · rw [if_neg hn] at ih
        have hnot : n ∉ ((k, d) :: rest).map Prod.fst := by
          simp only [List.map_cons, List.mem_cons, not_or]
          exact ⟨Ne.symm hk, hn⟩
        rw [if_neg hk, if_neg hnot]
        simp only [List.map_cons, ih, List.cons_append]

theorem NodeLegal.setChild (h : t.NodeLegal) (hd : t.entry.isDirectory = true)
    (hn : Path.IsName n) (c : Tree) : (t.setChild n c).NodeLegal := by
  have hnames : (t.setChild n c).children.map Prod.fst = _ := names_setNamed n c t.children
  refine ⟨fun _ => hd, ?_, ?_, fun p hp => h.target p hp⟩
  · rw [hnames]
    split
    · exact h.nodup
    · rename_i hmem
      refine List.nodup_append.mpr ⟨h.nodup, by simp, ?_⟩
      intro a ha b hb hab
      rw [List.mem_singleton.mp hb] at hab
      exact hmem (hab ▸ ha)
  · intro m hm
    rw [hnames] at hm
    split at hm
    · exact h.names m hm
    · rcases List.mem_append.mp hm with hm | hm
      · exact h.names m hm
      · rw [List.mem_singleton.mp hm]; exact hn

theorem AllLegal.setChild (h : t.AllLegal) (hd : t.entry.isDirectory = true)
    (hn : Path.IsName n) {c : Tree} (hc : c.AllLegal) : (t.setChild n c).AllLegal := by
  apply allLegal_of (h.node.setChild hd hn c)
  intro m d hm
  rw [child?_setChild] at hm
  split at hm
  · obtain rfl : c = d := by simpa using hm
    exact hc
  · exact h.child hm

/-- A child in the place of one that is there needs no further conditions. -/
theorem AllLegal.replaceChild (h : t.AllLegal) {b c : Tree} (hb : t.child? n = some b)
    (hc : c.AllLegal) : (t.setChild n c).AllLegal :=
  h.setChild (h.node.isDirectory_of_child hb)
    (h.node.names n (List.mem_map_of_mem (f := Prod.fst) (mem_children_of_child? hb))) hc

theorem AllLegal.dropChild (h : t.AllLegal) (n : Text) : (t.dropChild n).AllLegal := by
  have hsub : ((t.dropChild n).children.map Prod.fst).Sublist (t.children.map Prod.fst) :=
    List.filter_sublist.map _
  refine allLegal_of ⟨fun hne => h.node.directory ?_, hsub.nodup h.node.nodup, ?_, ?_⟩ ?_
  · intro hnil
    exact hne (by simp [Tree.dropChild, children] at *; simp [hnil])
  · exact fun m hm => h.node.names m (hsub.subset hm)
  · exact fun p hp => h.node.target p hp
  · intro m c hm
    rw [child?_dropChild] at hm
    split at hm
    · simp at hm
    · exact h.child hm

theorem AllLegal.setEntry (h : t.AllLegal) (he : t.children ≠ [] → e.isDirectory = true)
    (ht : ∀ p, e = .link p → ∀ n ∈ p.names, Path.IsPiece n) : (t.setEntry e).AllLegal :=
  allLegal_of ⟨he, h.node.nodup, h.node.names, ht⟩ fun _ _ hc => h.child hc

/-! ## Changes -/

theorem AllLegal.put (h : t.AllLegal) (hl : l = [] ∨ t.isDirectory l.dropLast = true)
    (hn : ∀ n ∈ l, Path.IsName n) (he : t.isEmptyAt l = true ∨ e.isDirectory = true)
    (ht : ∀ p, e = .link p → ∀ n ∈ p.names, Path.IsPiece n) : (t.put l e).AllLegal := by
  -- the way down keeps each node legal, since it replaces one child by a legal one
  induction l generalizing t with
  | nil =>
    refine h.setEntry (fun hne => he.resolve_left fun hempty => hne ?_) ht
    simpa [isEmptyAt] using hempty
  | cons n l ih =>
    cases hc : t.child? n with
    | some c =>
      rw [put_of_child hc]
      refine h.replaceChild hc (ih (h.child hc) ?_ ?_ ?_)
      · cases l with
        | nil => exact .inl rfl
        | cons k l =>
          rw [List.dropLast_cons_of_ne_nil (by simp)] at hl
          simpa [isDirectory, find?_cons, hc] using hl
      · exact fun m hm => hn m (List.mem_cons_of_mem _ hm)
      · simpa [isEmptyAt, at?_cons, hc] using he
    -- a new child: its directory is the node itself, or else it would be there already
    | none =>
      cases l with
      | nil =>
        rw [put_of_no_child hc]
        have hd : t.entry.isDirectory = true := by simpa [isDirectory] using hl
        exact h.setChild hd (hn n (List.mem_cons_self ..)) (allLegal_leaf ht)
      | cons k l =>
        rw [List.dropLast_cons_of_ne_nil (by simp)] at hl
        simp [isDirectory, find?_cons, hc] at hl

theorem AllLegal.stamp (h : t.AllLegal) (l : Location) (time : Int) :
    (t.stamp l time).AllLegal := by
  induction l generalizing t with
  | nil =>
    refine h.setEntry (fun hne => ?_) fun p hp => ?_
    · have hd := h.node.directory hne
      cases he : t.entry <;> simp_all [Entry.setTime, Entry.isDirectory]
    -- a link has no time of its own and keeps its target
    · cases he : t.entry with
      | link q =>
        rw [he] at hp
        obtain rfl : q = p := by simpa [Entry.setTime] using hp
        exact h.node.target q he
      | _ => rw [he] at hp; simp [Entry.setTime] at hp
  | cons n l ih =>
    unfold Tree.stamp
    cases hc : t.child? n with
    | some c => exact h.replaceChild hc (ih (h.child hc))
    | none => exact h

theorem AllLegal.prune (h : t.AllLegal) (l : Location) : (t.prune l).AllLegal := by
  induction l generalizing t with
  | nil => exact h
  | cons n l ih =>
    cases l with
    | nil => exact h.dropChild n
    | cons k l =>
      rw [Tree.prune]
      · cases hc : t.child? n with
        | some c => exact h.replaceChild hc (ih (h.child hc))
        | none => exact h
      · simp

/-! ## Legal trees -/

/-- A tree of files: a directory, legal at all nodes. -/
structure Legal (t : Tree) : Prop where
  root : t.entry.isDirectory = true
  nodes : t.AllLegal

theorem Legal.wellFormed (h : t.Legal) : t.WellFormed :=
  ⟨h.root, fun l d hd => (h.nodes l d hd).directory, fun l d hd => (h.nodes l d hd).nodup⟩

theorem Legal.isDirectory_nil (h : t.Legal) : t.isDirectory [] = true := by
  simpa [isDirectory] using h.root

/-- Only directories have something below them. -/
theorem Legal.isDirectory_of_below (h : t.Legal) {m : Location} (hm : m ≠ [])
    (hs : (t.find? (l ++ m)).isSome) : t.isDirectory l = true := by
  rw [find?_append] at hs
  rw [isDirectory, find?]
  cases hl : t.at? l with
  | none => simp [hl] at hs
  | some d =>
    cases m with
    | nil => exact absurd rfl hm
    | cons n m =>
      cases hc : d.child? n with
      | none => simp [hl, find?_cons, hc] at hs
      | some c => simpa using (h.nodes l d hl).isDirectory_of_child hc

/-- The names on the way to an entry are names. -/
theorem AllLegal.isName (h : t.AllLegal) (hs : (t.find? l).isSome) :
    ∀ n ∈ l, Path.IsName n := by
  induction l generalizing t with
  | nil => simp
  | cons n l ih =>
    rw [find?_cons] at hs
    cases hc : t.child? n with
    | none => simp [hc] at hs
    | some c =>
      intro m hm
      rcases List.mem_cons.mp hm with rfl | hm
      · exact h.node.names m
          (List.mem_map_of_mem (f := Prod.fst) (mem_children_of_child? hc))
      · exact ih (h.child hc) (by simpa [hc] using hs) m hm

/-- A link spells a path. -/
theorem Legal.target (h : t.Legal) {p : Path} (hl : t.find? l = some (.link p)) :
    ∀ n ∈ p.names, Path.IsPiece n := by
  obtain ⟨d, hd, he⟩ := Option.map_eq_some_iff.mp hl
  exact (h.nodes l d hd).target p he

theorem isSome_find?_of_isDirectory (h : t.isDirectory l = true) : (t.find? l).isSome := by
  obtain ⟨time, ht⟩ := isDirectory_iff.mp h
  simp [ht]

/-- Only the root has nothing above it. -/
theorem Legal.isSome_find?_dropLast (h : t.Legal) (hs : (t.find? l).isSome) :
    l = [] ∨ (t.find? l.dropLast).isSome := by
  rcases List.eq_nil_or_concat l with hnil | ⟨dir, n, hcons⟩
  · exact .inl hnil
  · rw [List.concat_eq_append] at hcons
    subst hcons
    rw [List.dropLast_concat]
    exact .inr (isSome_find?_of_isDirectory (h.isDirectory_of_below (m := [n]) (by simp) hs))

theorem Legal.put (h : t.Legal) (hl : t.isDirectory l.dropLast = true) (hne : l ≠ [])
    (hn : ∀ n ∈ l, Path.IsName n) (he : t.isEmptyAt l = true)
    (ht : ∀ p, e = .link p → ∀ n ∈ p.names, Path.IsPiece n) : (t.put l e).Legal := by
  refine ⟨?_, h.nodes.put (.inr hl) hn (.inl he) ht⟩
  have hroot := find?_put (t := t) (.inr (isSome_find?_of_isDirectory hl)) e []
  rw [if_neg (Ne.symm hne)] at hroot
  simpa [← Option.some.inj hroot] using h.root

theorem Legal.stamp (h : t.Legal) (l : Location) (time : Int) : (t.stamp l time).Legal := by
  refine ⟨?_, h.nodes.stamp l time⟩
  have hroot := find?_stamp t l time []
  have hd := h.root
  split at hroot
  · have heq := Option.some.inj hroot
    rw [heq]
    cases he : t.entry <;> simp_all [Entry.setTime, Entry.isDirectory]
  · rw [Option.some.inj hroot]
    exact hd

theorem Legal.prune (h : t.Legal) (hne : l ≠ []) : (t.prune l).Legal := by
  refine ⟨?_, h.nodes.prune l⟩
  have hroot := find?_prune hne t []
  rw [if_neg (by simpa using hne)] at hroot
  rw [Option.some.inj hroot]
  exact h.root

theorem Legal.add {dir : Location} (h : t.Legal) (hdir : t.isDirectory dir = true)
    (hn : Path.IsName n) (hfree : t.find? (dir ++ [n]) = none)
    (ht : ∀ p, e = .link p → ∀ n ∈ p.names, Path.IsPiece n) (now : Int) :
    (t.add (dir ++ [n]) e now).Legal := by
  refine (h.put (by simpa using hdir) (by simp) ?_ ?_ ht).stamp _ _
  · intro m hm
    rcases List.mem_append.mp hm with hm | hm
    · exact h.nodes.isName (isSome_find?_of_isDirectory hdir) m hm
    · rw [List.mem_singleton.mp hm]; exact hn
  · simp [isEmptyAt, find?_eq_none_iff.mp hfree]

theorem Legal.remove (h : t.Legal) (hne : l ≠ []) (now : Int) : (t.remove l now).Legal :=
  (h.prune hne).stamp _ _

/-! ## Checking -/

mutual

/-- Checks that a tree is legal at all nodes. -/
def checkNodes : Tree → Bool
  | node e trees =>
    (trees.isEmpty || e.isDirectory) && decide (trees.map Prod.fst).Nodup
      && (trees.map Prod.fst).all (fun n => decide (Path.IsName n))
      && (match e with | .link p => p.names.all fun n => decide (Path.IsPiece n) | _ => true)
      && checkAll trees

/-- Checks that trees are legal at all nodes. -/
def checkAll : List (Text × Tree) → Bool
  | [] => true
  | (_, t) :: rest => checkNodes t && checkAll rest

end

theorem checkNodes_of_mem {trees : List (Text × Tree)} (h : checkAll trees = true) {c : Tree}
    (hc : (n, c) ∈ trees) : checkNodes c = true := by
  induction trees with
  | nil => simp at hc
  | cons kt rest ih =>
    obtain ⟨k, d⟩ := kt
    rw [checkAll, Bool.and_eq_true] at h
    rcases List.mem_cons.mp hc with heq | hc
    · rw [(Prod.mk.inj heq).2]; exact h.1
    · exact ih h.2 hc

theorem nodeLegal_of_check (h : checkNodes t = true) : t.NodeLegal := by
  obtain ⟨e, trees⟩ := t
  simp only [checkNodes, Bool.and_eq_true, decide_eq_true_eq] at h
  obtain ⟨⟨⟨⟨hd, hnodup⟩, hnames⟩, htarget⟩, -⟩ := h
  refine ⟨fun hne => ?_, hnodup, ?_, ?_⟩
  · rcases Bool.or_eq_true _ _ |>.mp hd with hempty | hd
    · exact absurd (List.isEmpty_iff.mp hempty) hne
    · exact hd
  · exact fun n hn => of_decide_eq_true (List.all_eq_true.mp hnames n hn)
  · intro p hp n hn
    obtain rfl : e = .link p := hp
    exact of_decide_eq_true (List.all_eq_true.mp htarget n hn)

/-- A tree that passes the check is legal. -/
theorem legal_of_check (hroot : t.entry.isDirectory = true) (h : checkNodes t = true) :
    t.Legal := by
  refine ⟨hroot, fun l d hd => ?_⟩
  -- only the root has to be a directory, so that goes before the induction
  clear hroot
  induction l generalizing t with
  | nil =>
    obtain rfl : t = d := by simpa using hd
    exact nodeLegal_of_check h
  | cons n l ih =>
    rw [at?_cons] at hd
    cases hc : t.child? n with
    | none => simp [hc] at hd
    | some c =>
      have hall : checkAll t.children = true := by
        obtain ⟨e, trees⟩ := t
        simp only [checkNodes, Bool.and_eq_true] at h
        exact h.2
      exact ih (checkNodes_of_mem hall (mem_children_of_child? hc)) (by simpa [hc] using hd)

end Tree

namespace Disk

/-- A disk whose tree is legal, with a current directory that is in it unless it has been
removed. -/
structure Legal (d : Disk) : Prop where
  tree : d.tree.Legal
  names : ∀ n ∈ d.current, Path.IsName n
  current : d.adrift = false → d.tree.isDirectory d.current = true

theorem Legal.withTree {d : Disk} (h : d.Legal) {t : Tree} (ht : t.Legal) :
    (d.withTree t).Legal := by
  refine ⟨ht, h.names, fun ha => ?_⟩
  simp only [Disk.withTree, Bool.or_eq_false_iff, Bool.not_eq_false'] at ha
  exact ha.2

end Disk

end Provenance
