/-
What removing empty directories leaves.

The directories below the output directory are gone through once, the deepest first,
and each is removed if it is empty when its turn comes. Once is enough: what is in a
directory that was passed over is a file, or a directory deeper down whose turn had
come before, so that it stays. No directory that is left is empty.

A directory can be passed over, or removed, only if its path leads to it, so that a
run that gets through has found each of them.
-/
import Provenance.Proofs.Update.Clearing

set_option autoImplicit false

namespace Provenance

open Action Host

/-! ## Directories of a tree -/

namespace Tree

variable {t : Tree} {l : Location} {names : List Text}

theorem mem_directoriesAmong {trees : List (Text × Tree)} :
    names ∈ directoriesAmong trees ↔ ∃ n c, (n, c) ∈ trees ∧ c.entry.isDirectory = true
      ∧ (names = [n] ∨ ∃ m ∈ c.directories, names = n :: m) := by
  induction trees with
  | nil => simp [directoriesAmong]
  | cons kt rest ih =>
    obtain ⟨k, d⟩ := kt
    have hhead : names ∈ (if d.entry.isDirectory then [k] :: d.directories.map (k :: ·) else [])
        ↔ d.entry.isDirectory = true ∧ (names = [k] ∨ ∃ m ∈ d.directories, names = k :: m) := by
      cases d.entry.isDirectory <;> simp [eq_comm]
    rw [directoriesAmong, List.mem_append, ih, hhead]
    constructor
    · rintro (⟨n, c, hc, hrest⟩ | hk)
      · exact ⟨n, c, List.mem_cons_of_mem _ hc, hrest⟩
      · exact ⟨k, d, List.mem_cons_self .., hk⟩
    · rintro ⟨n, c, hc, hrest⟩
      rcases List.mem_cons.mp hc with heq | hc
      · obtain ⟨rfl, rfl⟩ := Prod.mk.inj heq
        exact .inr hrest
      · exact .inl ⟨n, c, hc, hrest⟩

/-- The names listed are those that lead to the directories below a tree. -/
theorem AllLegal.mem_directories (h : t.AllLegal) :
    names ∈ t.directories ↔ names ≠ [] ∧ t.isDirectory names = true := by
  induction names generalizing t with
  | nil =>
    obtain ⟨e, trees⟩ := t
    rw [directories, mem_directoriesAmong]
    simp
  | cons n m ih =>
    have hlist : n :: m ∈ t.directories ↔ ∃ c, t.child? n = some c ∧ c.entry.isDirectory = true
        ∧ (m = [] ∨ m ∈ c.directories) := by
      obtain ⟨e, trees⟩ := t
      rw [directories, mem_directoriesAmong]
      constructor
      · rintro ⟨k, c, hc, hdir, hrest⟩
        rcases hrest with heq | ⟨m', hm', heq⟩
        · obtain ⟨rfl, rfl⟩ := List.cons.inj heq
          exact ⟨c, h.node.child?_of_mem hc, hdir, .inl rfl⟩
        · obtain ⟨rfl, rfl⟩ := List.cons.inj heq
          exact ⟨c, h.node.child?_of_mem hc, hdir, .inr hm'⟩
      · rintro ⟨c, hc, hdir, hrest⟩
        refine ⟨n, c, mem_children_of_child? hc, hdir, ?_⟩
        rcases hrest with rfl | hm
        · exact .inl rfl
        · exact .inr ⟨m, hm, rfl⟩
    rw [hlist, isDirectory, find?_cons]
    constructor
    · rintro ⟨c, hc, hdir, hrest⟩
      refine ⟨by simp, ?_⟩
      rw [hc, Option.bind_some]
      rcases hrest with rfl | hm
      · simpa using hdir
      · exact ((ih (h.child hc)).mp hm).2
    · rintro ⟨-, hdir⟩
      rcases hc : t.child? n with _ | c
      · rw [hc] at hdir
        simp at hdir
      rw [hc, Option.bind_some] at hdir
      have hc' := h.child hc
      refine ⟨c, rfl, ?_, ?_⟩
      -- whatever has a directory below it is one
      · cases m with
        | nil => simpa using hdir
        | cons k m =>
          rw [find?_cons] at hdir
          rcases hk : c.child? k with _ | b
          · rw [hk] at hdir
            simp at hdir
          · exact hc'.node.isDirectory_of_child hk
      · by_cases hm : m = []
        · exact .inl hm
        · exact .inr ((ih hc').mpr ⟨hm, hdir⟩)

/-- The names listed at a location go on from it to the directories below it. -/
theorem AllLegal.mem_directories_at? (h : t.AllLegal) :
    names ∈ ((t.at? l).map directories).getD [] ↔ names ≠ [] ∧ t.isDirectory (l ++ names) = true := by
  rw [isDirectory, find?_append]
  rcases hl : t.at? l with _ | d
  · simp
  · have hd : d.AllLegal := by
      intro m c hc
      exact h (l ++ m) c (by rw [at?_append, hl]; exact hc)
    exact hd.mem_directories

/-- A directory is not empty if something is in it. -/
theorem isEmptyAt_eq_false_iff : t.isEmptyAt l = false ↔ ∃ n, (t.find? (l ++ [n])).isSome := by
  constructor
  · intro h
    by_contra hno
    rw [isEmptyAt_of_find?_none fun n => ?_] at h
    · exact Bool.noConfusion h
    · by_contra hsome
      exact hno ⟨n, Option.isSome_iff_ne_none.mpr hsome⟩
  · rintro ⟨n, hn⟩
    rw [Bool.eq_false_iff]
    intro hempty
    rw [find?_below_of_isEmptyAt hempty n []] at hn
    simp at hn

end Tree

namespace Disk

variable {d d' : Disk} {p : Path} {x : Location} {e : Entry} {now : Int}

/-- What a removed directory leaves: everything else. -/
theorem shape_removeDirectory (hp : p.isAbsolute = true)
    (hpl : d.place true p = .ok (.present x e)) (hc : d.removeDirectory p now = .ok d') :
    ∀ y, d'.tree.shape y = if y = x then none else d.tree.shape y := by
  obtain ⟨x', time, hpl', hne, hempty, rfl⟩ := removeDirectory_ok hc
  have hfollow := place_follow_present hp hpl' rfl
  obtain ⟨rfl, -⟩ : x = x' ∧ e = .directory time := by simpa [hpl] using hfollow
  intro y
  rcases List.eq_nil_or_concat x with hnil | ⟨dir, n, hcons⟩
  · exact absurd hnil hne
  · rw [List.concat_eq_append] at hcons
    subst hcons
    exact Tree.shape_remove_of_empty hempty now y

/-- On a disk that has lost something, a path that goes on through directories leads, if it leads
anywhere, to where it led before. -/
theorem place_descend_of_keeps {d₀ : Disk} {root : Path} {loc : Location} {names : List Text}
    {e₀ e' : Entry} (hroot : root.isAbsolute = true) (hd₀ : d₀.Legal) (hd : d.Legal)
    (hk : d.tree.Keeps d₀.tree) (hpl : d₀.place true root = .ok (.present loc e₀))
    (hdir : d₀.tree.isDirectory (loc ++ names) = true)
    (hfound : d.place true (root.descend names) = .ok (.present x e')) :
    x = loc ++ names
      ∧ ∃ e₁, d₀.place true (root.descend names) = .ok (.present (loc ++ names) e₁) := by
  have hup : ∀ n ∈ names, n ≠ Path.upName := fun n hn =>
    (hd₀.tree.nodes.isName (Tree.isSome_find?_of_isDirectory hdir) n
      (List.mem_append_right _ hn)).2
  obtain ⟨e₁, hpl₁⟩ := place_of_keeps (p := root.descend names) hd.tree hroot hfound hk
  rcases place_descend_directory hd₀.tree hroot hpl hup hdir with ⟨e₂, hpl₂⟩ | herror
  · obtain ⟨rfl, rfl⟩ : x = loc ++ names ∧ e₁ = e₂ := by simpa [hpl₁] using hpl₂
    exact ⟨rfl, e₁, hpl₁⟩
  · simp [hpl₁] at herror

end Disk

/-! ## Removing what is empty -/

namespace Store

variable {h h' : Host} {p root : Path} {d₀ : Disk} {loc : Location} {todo : List (List Text)}
  {names : List Text} {removed : List (List Text)}

theorem removeDirectory_ok {u : Unit} (hr : (removeDirectory p).runOn h = (.ok u, h')) :
    ∃ now, h.disk.removeDirectory p now = .ok h'.disk := method_ok hr

theorem keeps_of_removeDirectory {u : Unit} (hr : (removeDirectory p).runOn h = (.ok u, h')) :
    h'.disk.tree.Keeps h.disk.tree :=
  (Update.shrinks_removeDirectory p).of_run hr

/-- The first of some directories is found, and removed if it is empty. -/
theorem removeIfEmpty_cons_ok
    (hr : (removeIfEmpty root (names :: todo)).runOn h = (.ok removed, h')) :
    ∃ x e, h.disk.place true (root.descend names) = .ok (.present x e)
      ∧ ((h.disk.tree.isEmptyAt x = true ∧ ∃ h₁ more,
            (removeDirectory (root.descend names)).runOn h = (.ok (), h₁)
              ∧ (removeIfEmpty root todo).runOn h₁ = (.ok more, h') ∧ removed = names :: more)
          ∨ (h.disk.tree.isEmptyAt x = false
            ∧ (removeIfEmpty root todo).runOn h = (.ok removed, h'))) := by
  obtain ⟨⟨x, e⟩, h₁, hask, hrest⟩ := bind_ok_iff.mp hr
  rw [runOn_ask] at hask
  rcases hs : h.disk.stat (root.descend names) with er | ⟨x', e'⟩
  · rw [hs] at hask
    simp at hask
  rw [hs] at hask
  obtain ⟨⟨rfl, rfl⟩, rfl⟩ : (x' = x ∧ e' = e) ∧ h = h₁ := by simpa using hask
  refine ⟨x', e', Disk.stat_ok_iff.mp hs, ?_⟩
  obtain ⟨_, _, hget, hrest⟩ := bind_ok_iff.mp hrest
  obtain ⟨rfl, rfl⟩ := get_ok_iff.mp hget
  split at hrest
  · rename_i hempty
    obtain ⟨_, h₁, hremove, hrest⟩ := bind_ok_iff.mp hrest
    obtain ⟨more, h₂, hmore, hpure⟩ := bind_ok_iff.mp hrest
    obtain ⟨rfl, rfl⟩ : names :: more = removed ∧ h₂ = h' := by simpa using hpure
    exact .inl ⟨hempty, h₁, more, hremove, hmore, rfl⟩
  · rename_i hfull
    exact .inr ⟨by simpa using hfull, hrest⟩

/-- What going through some directories has come to: none that is left is empty, all of them have been
found, and nothing else has changed. -/
structure Pruned (d₀ : Disk) (root : Path) (loc : Location) (todo : List (List Text))
    (d d' : Disk) : Prop where
  keeps : d'.tree.Keeps d.tree
  full : ∀ names ∈ todo, d'.tree.isDirectory (loc ++ names) = true →
    d'.tree.isEmptyAt (loc ++ names) = false
  shape : ∀ x, (∀ names ∈ todo, x ≠ loc ++ names) → d'.tree.shape x = d.tree.shape x
  found : ∀ names ∈ todo, ∃ e, d₀.place true (root.descend names) = .ok (.present (loc ++ names) e)

section Pruned

variable {d d₁ d' : Disk} {e : Entry}
  (hplace : d₀.place true (root.descend names) = .ok (.present (loc ++ names) e))
include hplace

/-- A directory that is removed before others is gone when they have been gone through. -/
theorem Pruned.cons_removed (hk : d₁.tree.Keeps d.tree)
    (hshape : ∀ x, d₁.tree.shape x = if x = loc ++ names then none else d.tree.shape x)
    (h : Pruned d₀ root loc todo d₁ d') : Pruned d₀ root loc (names :: todo) d d' := by
  refine ⟨h.keeps.trans hk, fun ms hms hthere => ?_, fun x hx => ?_, fun ms hms => ?_⟩
  · rcases List.mem_cons.mp hms with rfl | hms
    · -- it is gone, and nothing is made after that
      have hgone := h.keeps _ _ (Tree.isDirectory_iff_shape.mp hthere)
      rw [hshape, if_pos rfl] at hgone
      simp at hgone
    · exact h.full ms hms hthere
  · rw [h.shape x fun ms hms => hx ms (List.mem_cons_of_mem _ hms), hshape,
      if_neg (hx names (List.mem_cons_self ..))]
  · rcases List.mem_cons.mp hms with rfl | hms
    · exact ⟨e, hplace⟩
    · exact h.found ms hms

/-- One that is passed over before others that are no deeper is not empty even then. -/
theorem Pruned.cons_full (hfull : d.tree.isEmptyAt (loc ++ names) = false)
    (hdeep : ∀ ms ∈ todo, ms.length ≤ names.length) (h : Pruned d₀ root loc todo d d') :
    Pruned d₀ root loc (names :: todo) d d' := by
  refine ⟨h.keeps, fun ms hms hthere => ?_, fun x hx => ?_, fun ms hms => ?_⟩
  · rcases List.mem_cons.mp hms with rfl | hms
    · -- what is in it is deeper than whatever is removed later
      obtain ⟨n, hn⟩ := Tree.isEmptyAt_eq_false_iff.mp hfull
      have hkept : d'.tree.shape (loc ++ ms ++ [n]) = d.tree.shape (loc ++ ms ++ [n]) := by
        apply h.shape
        intro ks hks heq
        have hlen := congrArg List.length heq
        have hle := hdeep ks hks
        rw [List.length_append, List.length_append, List.length_append, List.length_singleton] at hlen
        omega
      refine Tree.isEmptyAt_eq_false_iff.mpr ⟨n, ?_⟩
      rw [Tree.isSome_iff_shape, hkept, ← Tree.isSome_iff_shape]
      exact hn
    · exact h.full ms hms hthere
  · exact h.shape x fun ms hms => hx ms (List.mem_cons_of_mem _ hms)
  · rcases List.mem_cons.mp hms with rfl | hms
    · exact ⟨e, hplace⟩
    · exact h.found ms hms

end Pruned

/-- Directories in descending order of their depth, all of which the disk `d₀` has, are gone through
once, on a disk that has lost no more than directories. -/
theorem removeIfEmpty_pruned (hroot : root.isAbsolute = true) (hd₀ : d₀.Legal) {e : Entry}
    (hpl : d₀.place true root = .ok (.present loc e))
    (htodo : ∀ names ∈ todo, d₀.tree.isDirectory (loc ++ names) = true)
    (hsorted : todo.Pairwise fun a b => b.length ≤ a.length)
    (hd : h.disk.Legal) (hk : h.disk.tree.Keeps d₀.tree)
    (hr : (removeIfEmpty root todo).runOn h = (.ok removed, h')) :
    Pruned d₀ root loc todo h.disk h'.disk := by
  induction todo generalizing h removed with
  | nil =>
    obtain rfl : h = h' := (Prod.mk.inj hr).2
    exact ⟨.refl _, by simp, fun _ _ => rfl, by simp⟩
  | cons names todo ih =>
    obtain ⟨hdeep, hsorted'⟩ := List.pairwise_cons.mp hsorted
    have htodo' : ∀ ms ∈ todo, d₀.tree.isDirectory (loc ++ ms) = true :=
      fun ms hms => htodo ms (List.mem_cons_of_mem _ hms)
    obtain ⟨x, e', hfound, hcases⟩ := removeIfEmpty_cons_ok hr
    -- what the path leads to now is what it leads to on the larger disk
    obtain ⟨rfl, e₁, hplace⟩ := Disk.place_descend_of_keeps hroot hd₀ hd hk hpl
      (htodo names (List.mem_cons_self ..)) hfound
    rcases hcases with ⟨hempty, h₁, more, hremove, hmore, -⟩ | ⟨hfull, hmore⟩
    · obtain ⟨now, hc⟩ := removeDirectory_ok hremove
      have hk₁ := keeps_of_removeDirectory hremove
      have hshape := Disk.shape_removeDirectory (p := root.descend names) hroot hfound hc
      exact .cons_removed hplace hk₁ hshape
        (ih htodo' hsorted' (hd.removeDirectory hc) (hk₁.trans hk) hmore)
    · exact .cons_full hplace hfull hdeep (ih htodo' hsorted' hd hk hmore)

/-- The directories that are listed are those below the directory that the path leads to, but for the
ones whose own path is too long. -/
theorem directoriesBelow_ok (hroot : root.isAbsolute = true) (hd : h.disk.Legal)
    {listed : List (List Text)} (hr : (directoriesBelow root).runOn h = (.ok listed, h')) :
    h' = h ∧ ∀ names, names ∈ listed ↔ ∃ loc e, h.disk.place true root = .ok (.present loc e)
      ∧ names ≠ [] ∧ h.disk.tree.isDirectory (loc ++ names) = true
      ∧ Disk.isOverlong (root.descend names) = false := by
  rw [directoriesBelow_eq] at hr
  rcases inDirectory_ok hr with ⟨loc, e, hpl, -, hrun⟩ | ⟨rfl, rfl, hno, -⟩
  · obtain ⟨hlisted, rfl⟩ := Prod.mk.inj hrun
    obtain rfl := Except.ok.inj hlisted
    refine ⟨rfl, fun names => ?_⟩
    rw [List.mem_filter, hd.tree.nodes.mem_directories_at?, Bool.not_eq_true', and_assoc]
    constructor
    · intro hin
      exact ⟨loc, e, hpl, hin⟩
    · rintro ⟨loc', e', hpl', hin⟩
      obtain ⟨rfl, -⟩ : loc = loc' ∧ e = e' := by simpa [hpl] using hpl'
      exact hin
  · refine ⟨rfl, fun names => iff_of_false List.not_mem_nil ?_⟩
    rintro ⟨loc, e, hpl, hne, hdir, -⟩
    -- a directory that something is below would have been looked in
    have hloc := hd.tree.isDirectory_of_below hne (Tree.isSome_find?_of_isDirectory hdir)
    rw [Tree.isDirectory, Disk.place_present hroot hpl, Option.any_some, hno loc e hpl] at hloc
    exact Bool.noConfusion hloc

/-- The listed directories as they are gone through. -/
def deepestFirst (listed : List (List Text)) : List (List Text) :=
  (sortBy (fun a b => compare b.1 a.1) (listed.map fun names => (names.length, names))).map Prod.snd

theorem mem_deepestFirst {listed : List (List Text)} : names ∈ deepestFirst listed ↔ names ∈ listed := by
  simp [deepestFirst, mem_sortBy]

theorem pairwise_deepestFirst (listed : List (List Text)) :
    (deepestFirst listed).Pairwise fun a b => b.length ≤ a.length := by
  have htrans : Std.TransCmp fun a b : Nat × List Text => compare b.1 a.1 :=
    inferInstanceAs (Std.TransCmp fun a b : Nat × List Text => compareOn Prod.fst b a)
  have hsorted : (sortBy (fun a b => compare b.1 a.1) (listed.map fun names => (names.length, names))).Pairwise
      fun a b => (compare b.1 a.1).isLE = true := pairwise_sortBy _
  refine List.pairwise_map.mpr (hsorted.imp_of_mem fun {a b} ha hb hab => ?_)
  -- what is sorted by is the depth that stands beside each directory
  obtain ⟨as, -, rfl⟩ := List.mem_map.mp (mem_sortBy.mp ha)
  obtain ⟨bs, -, rfl⟩ := List.mem_map.mp (mem_sortBy.mp hb)
  exact Nat.isLE_compare.mp hab

/-- Removing the empty directories lists those below the path, none of them too deep, goes through
them, the deepest first, and tells in ascending order which it has removed. -/
theorem removeEmptyDirectories_runs {dirs : List Path}
    (hr : (removeEmptyDirectories root).runOn h = (.ok dirs, h')) :
    ∃ listed removed h₁ h₂, h₁.disk = h.disk ∧ (directoriesBelow root).runOn h₁ = (.ok listed, h₂)
      ∧ (∀ names ∈ listed, names.length ≤ maxNesting)
      ∧ (removeIfEmpty root (deepestFirst listed)).runOn h₂ = (.ok removed, h')
      ∧ dirs = (sorted removed.reverse).map root.descend := by
  obtain ⟨u, h₁, hfault, hrest⟩ := bind_ok_iff.mp hr
  obtain ⟨listed, h₂, hlist, hrest⟩ := bind_ok_iff.mp hrest
  dsimp only at hrest
  split at hrest
  · simp [runOn_bind] at hrest
  rename_i hshallow
  obtain ⟨removed, h₃, hremove, hpure⟩ := bind_ok_iff.mp hrest
  obtain ⟨rfl, rfl⟩ : _ = dirs ∧ h₃ = h' := by simpa using hpure
  refine ⟨listed, removed, h₁, h₂, disk_of_meetFault hfault, hlist, fun names hin => ?_, hremove, rfl⟩
  by_contra hdeep
  exact hshallow (List.any_eq_true.mpr ⟨names, hin, by simpa using hdeep⟩)

/-- Where removing the empty directories gets through, each directory below the path that is not too
long to be listed has been found, lies not too deep, and is not empty. -/
theorem removeEmptyDirectories_ok (hroot : root.isAbsolute = true) (hd : h.disk.Legal)
    {dirs : List Path} (hr : (removeEmptyDirectories root).runOn h = (.ok dirs, h')) {e : Entry}
    (hpl : h'.disk.place true root = .ok (.present loc e)) (hne : names ≠ [])
    (hdir : h'.disk.tree.isDirectory (loc ++ names) = true)
    (hshort : Disk.isOverlong (root.descend names) = false) :
    names.length ≤ maxNesting ∧ h'.disk.tree.isEmptyAt (loc ++ names) = false
      ∧ ∃ e', h.disk.place true (root.descend names) = .ok (.present (loc ++ names) e') := by
  have hd' : h'.disk.Legal :=
    (respects_removeEmptyDirectories stepwise_staysLegal root
      (fun _ => staysLegal_removeDirectory _)).of_run hr hd
  obtain ⟨listed, removed, h₁, h₂, hsame, hlist, hshallow, hremove, -⟩ := removeEmptyDirectories_runs hr
  rw [← hsame] at hd ⊢
  obtain ⟨rfl, hlisted⟩ := directoriesBelow_ok hroot hd hlist
  have hshrinks : h'.disk.tree.Keeps h₂.disk.tree :=
    (respects_removeIfEmpty Update.stepwise_shrinks root (deepestFirst listed)
      (fun _ _ => Update.shrinks_removeDirectory _)).of_run hremove
  -- the path led to the same directory before
  obtain ⟨e₀, hpl₀⟩ := Disk.place_of_keeps hd'.tree hroot hpl hshrinks
  have hin : names ∈ listed :=
    (hlisted names).mpr ⟨loc, e₀, hpl₀, hne, hshrinks.passable.directory _ hdir, hshort⟩
  have htodo : ∀ ms ∈ deepestFirst listed, h₂.disk.tree.isDirectory (loc ++ ms) = true := by
    intro ms hms
    obtain ⟨loc', e', hpl', -, hdir', -⟩ := (hlisted ms).mp (mem_deepestFirst.mp hms)
    obtain ⟨rfl, -⟩ : loc = loc' ∧ e₀ = e' := by simpa [hpl₀] using hpl'
    exact hdir'
  have hpruned := removeIfEmpty_pruned hroot hd hpl₀ htodo (pairwise_deepestFirst listed) hd
    (.refl _) hremove
  have hturn := mem_deepestFirst.mpr hin
  exact ⟨hshallow names hin, hpruned.full names hturn hdir, hpruned.found names hturn⟩

end Store

end Provenance
