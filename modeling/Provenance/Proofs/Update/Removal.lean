/-
What a sweep takes away, and what it leaves as it was.

A sweep changes a disk in one way only: an entry that has nothing below it is taken away.
All that is moved by that is the time of the directory that the entry was in, so that
whatever is still there is what was there before, times of directories aside. This holds
for every run of a sweep, however it ends.

What is listed below a directory is listed once and in ascending order. The order is that
of the names that lead from the directory to the entry, compared one after the other.
-/
import Provenance.Proofs.Update.Pruning

set_option autoImplicit false

namespace Provenance

open Action Host

/-! ## What is left as it was -/

/-- The entry, the time of a directory aside. -/
def Entry.undated : Entry → Entry
  | .directory _ => .directory 0
  | e => e

@[simp] theorem Entry.timeless_undated (e : Entry) : e.undated.timeless = e.timeless := by
  cases e <;> rfl

namespace Tree

variable {t t' t'' : Tree} {x : Location} {kind : Entry → Bool}

/-- Whatever is in the second tree is in the first one, times of directories aside. -/
def Spares (t t' : Tree) : Prop :=
  ∀ x e, t'.find? x = some e → (t.find? x).map Entry.undated = some e.undated

theorem Spares.refl (t : Tree) : Spares t t := fun x e hx => by rw [hx, Option.map_some]

theorem Spares.trans (h : Spares t t') (h' : Spares t' t'') : Spares t t'' := by
  intro x e hx
  obtain ⟨e', hx', he⟩ := Option.map_eq_some_iff.mp (h' x e hx)
  rw [h x e' hx', he]

/-- What is left is what was there. -/
theorem Spares.keeps (h : Spares t t') : t'.Keeps t := by
  intro x e hx
  obtain ⟨e', hx', rfl⟩ := Option.map_eq_some_iff.mp hx
  obtain ⟨e₀, hx₀, he⟩ := Option.map_eq_some_iff.mp (h x e' hx')
  rw [shape, hx₀, Option.map_some, ← Entry.timeless_undated, he, Entry.timeless_undated]

theorem Spares.eq_of_isSome (h : Spares t t') (hx : (t'.find? x).isSome) :
    (t'.find? x).map Entry.undated = (t.find? x).map Entry.undated := by
  obtain ⟨e, he⟩ := Option.isSome_iff_exists.mp hx
  rw [he, h x e he, Option.map_some]

/-- Taking an entry away moves the time of the directory it was in, and no other. -/
theorem spares_remove (ht : t.Legal) (hx : (t.find? x).isSome) (now : Int) :
    t.Spares (t.remove x now) := by
  intro y e hy
  rcases List.eq_nil_or_concat x with rfl | ⟨dir, n, rfl⟩
  · -- the root stays, and its time is moved
    obtain ⟨time, hroot⟩ := isDirectory_iff.mp ht.isDirectory_nil
    rw [remove, prune, List.dropLast_nil, find?_stamp] at hy
    split at hy
    · rename_i hnil
      rw [hnil, hroot] at hy ⊢
      obtain rfl := Option.some.inj hy
      rfl
    · rw [hy, Option.map_some]
  · rw [List.concat_eq_append] at hx hy
    rw [find?_remove] at hy
    split at hy
    · simp at hy
    split at hy
    · rename_i hdir
      obtain ⟨time, hfind⟩ := isDirectory_iff.mp (ht.isDirectory_of_below (m := [n]) (by simp) hx)
      rw [hdir, hfind] at hy ⊢
      obtain rfl := Option.some.inj hy
      rfl
    · rw [hy, Option.map_some]

end Tree

namespace Update

variable {l : Layout} {entries : Entries}

/-- A legal disk stays legal, and nothing but entries is taken from it. -/
def Thins (d d' : Disk) : Prop := d.Legal → d'.Legal ∧ d.tree.Spares d'.tree

theorem stepwise_thins : Stepwise (Across Thins) :=
  stepwise_across (fun d hd => ⟨hd, .refl d.tree⟩) fun h h' hd =>
    ⟨(h' (h hd).1).1, (h hd).2.trans (h' (h hd).1).2⟩

theorem thins_delete (p : Path) : Respects (Across Thins) (Store.delete p) := by
  apply respects_bind stepwise_thins (respects_meetFault stepwise_thins _ _)
  intro _
  apply respects_call stepwise_thins
  intro d now d' hc hd
  refine ⟨hd.unlink hc, ?_⟩
  obtain ⟨x, e, hpl, he, rfl⟩ := Disk.unlink_ok hc
  have hfind := Disk.place_present_of_not_directory hpl he
  exact Tree.spares_remove hd.tree (by rw [hfind]; rfl) now

theorem thins_removeDirectory {p : Path} (hp : p.isAbsolute = true) :
    Respects (Across Thins) (Store.removeDirectory p) := by
  apply respects_bind stepwise_thins (respects_meetFault stepwise_thins _ _)
  intro _
  apply respects_call stepwise_thins
  intro d now d' hc hd
  refine ⟨hd.removeDirectory hc, ?_⟩
  obtain ⟨x, time, hpl, -, -, rfl⟩ := Disk.removeDirectory_ok hc
  have hfind := Disk.place_present hp hpl
  exact Tree.spares_remove hd.tree (by rw [hfind]; rfl) now

theorem thins_sweep (hs : l.Sound) : Respects (Across Thins) (sweep l entries) :=
  respects_sweep stepwise_thins l entries thins_delete fun _ =>
    thins_removeDirectory (hs.output.straight hs.root).isAbsolute

end Update

/-! ## What is listed -/

namespace Tree

variable {t : Tree} {l : Location}

mutual

/-- In a legal tree each entry is listed once. -/
theorem nodup_entries : (t : Tree) → t.AllLegal → (t.entries.map Prod.fst).Nodup
  | node e trees, h => by
    rw [entries, List.map_cons, List.nodup_cons]
    refine ⟨fun hmem => ?_, nodup_entriesBelow trees h.node.nodup fun n c hc =>
      h.child (h.node.child?_of_mem hc)⟩
    -- what is below a directory has a name on the way
    obtain ⟨⟨m, e'⟩, hm, rfl⟩ := List.mem_map.mp hmem
    obtain ⟨n, l, c, hnil, -⟩ := mem_entriesBelow.mp hm
    simp at hnil

theorem nodup_entriesBelow : (trees : List (Text × Tree)) → (trees.map Prod.fst).Nodup →
    (∀ n c, (n, c) ∈ trees → c.AllLegal) → ((entriesBelow trees).map Prod.fst).Nodup
  | [], _, _ => List.nodup_nil
  | (n, c) :: rest, hnames, hlegal => by
    rw [List.map_cons, List.nodup_cons] at hnames
    have hhead := nodup_entries c (hlegal n c (List.mem_cons_self ..))
    have hrest := nodup_entriesBelow rest hnames.2 fun m d hd =>
      hlegal m d (List.mem_cons_of_mem _ hd)
    have hmapped : (c.entries.map fun le => (n :: le.1, le.2)).map Prod.fst
        = (c.entries.map Prod.fst).map (n :: ·) := by simp
    rw [entriesBelow, List.map_append, hmapped, List.nodup_append]
    refine ⟨hhead.map fun _ _ heq => (List.cons.inj heq).2, hrest, ?_⟩
    -- what is listed for the other names begins with one of these
    rintro a ha b hb rfl
    obtain ⟨m, -, rfl⟩ := List.mem_map.mp ha
    obtain ⟨⟨m', e⟩, hm', heq⟩ := List.mem_map.mp hb
    obtain ⟨k, l, d, rfl, hd, -⟩ := mem_entriesBelow.mp hm'
    obtain ⟨rfl, -⟩ := List.cons.inj heq
    exact hnames.1 (List.mem_map.mpr ⟨(k, d), hd, rfl⟩)

end

/-- What is listed below a location is in ascending order, and each entry is listed once. -/
theorem AllLegal.pairwise_inside (h : t.AllLegal) (l : Location) :
    ((t.inside l).map Prod.fst).Pairwise fun a b => compare a b = .lt := by
  unfold inside
  rcases hl : t.at? l with _ | d
  · exact List.Pairwise.nil
  have hd : d.AllLegal := fun m c hc => h (l ++ m) c (by rw [at?_append, hl]; exact hc)
  have hnodup : ((entriesBelow d.children).map Prod.fst).Nodup :=
    nodup_entriesBelow _ hd.node.nodup fun n c hc => hd.child (hd.node.child?_of_mem hc)
  have hsorted : (sortOn Prod.fst (entriesBelow d.children)).map Prod.fst
      = sorted ((entriesBelow d.children).map Prod.fst) :=
    (sortBy_map (fun _ _ => rfl) _).symm
  dsimp only
  rw [hsorted]
  exact pairwise_lt_sorted hnodup

end Tree

namespace Disk

variable {d d' : Disk} {root : Path} {names : List Text} {loc : Location} {e : Entry}

/-- What is found on from where a path leads to, links not followed. -/
def below? (d : Disk) (root : Path) (names : List Text) : Option Entry :=
  match d.place true root with
  | .ok (.present loc _) => d.tree.find? (loc ++ names)
  | _ => none

theorem below?_of_present (h : d.place true root = .ok (.present loc e)) (names : List Text) :
    d.below? root names = d.tree.find? (loc ++ names) := by
  rw [below?, h]

/-- Something is found only where the path leads somewhere. -/
theorem below?_eq_some_iff : d.below? root names = some e
    ↔ ∃ loc e₀, d.place true root = .ok (.present loc e₀) ∧ d.tree.find? (loc ++ names) = some e := by
  unfold below?
  rcases d.place true root with er | ⟨loc, e₀⟩ | ⟨dir, n⟩ <;> simp

/-- What is found on from a path through some names is at a location. -/
def Under (d : Disk) (root : Path) (names : List Text) (x : Location) : Prop :=
  ∃ loc e, d.place true root = .ok (.present loc e) ∧ x = loc ++ names

/-- A disk has lost what is found on from a path through some names; everything else has stayed, times
aside. -/
structure Loses (d : Disk) (root : Path) (lost : List (List Text)) (d' : Disk) : Prop where
  gone : ∀ names ∈ lost, ∀ x, d.Under root names x → d'.tree.shape x = none
  left : ∀ x, (∀ names ∈ lost, ¬ d.Under root names x) → d'.tree.shape x = d.tree.shape x

theorem Loses.keeps {lost : List (List Text)} (h : d.Loses root lost d') : d'.tree.Keeps d.tree := by
  intro x e hx
  by_cases hlost : ∃ names ∈ lost, d.Under root names x
  · obtain ⟨names, hin, hunder⟩ := hlost
    rw [h.gone names hin x hunder] at hx
    simp at hx
  · rw [← h.left x fun names hin hunder => hlost ⟨names, hin, hunder⟩]
    exact hx

/-- Where only files have been lost, all ways are left. -/
theorem Loses.passable {lost : List (List Text)} (h : d.Loses root lost d')
    (hfiles : ∀ names ∈ lost, (d.below? root names).any Entry.isFile = true) :
    Passable d.tree d'.tree := by
  -- a file is neither gone through nor followed
  have hleft : ∀ x e, d.tree.find? x = some e → e.isFile = false → d'.tree.shape x = d.tree.shape x := by
    intro x e hx hno
    apply h.left
    rintro names hin ⟨loc, e₀, hpl, rfl⟩
    have hfile := hfiles names hin
    rw [below?_of_present hpl, hx, Option.any_some, hno] at hfile
    exact Bool.noConfusion hfile
  constructor
  · intro x hx
    obtain ⟨time, hfind⟩ := Tree.isDirectory_iff.mp hx
    rw [Tree.isDirectory_iff_shape] at hx ⊢
    rw [hleft x _ hfind rfl, hx]
  · intro x target hx
    have hlink := Tree.link_iff_shape.mp hx
    rw [Tree.link_iff_shape, hleft x _ hx rfl, hlink]

/-- Where only files below it have been lost, a path leads to where it led. -/
theorem Loses.leads {lost : List (List Text)} (h : d.Loses root lost d') (ht : d.tree.Legal)
    (hroot : root.isAbsolute = true)
    (hfiles : ∀ names ∈ lost, names ≠ [] ∧ (d.below? root names).any Entry.isFile = true)
    (hpl : d.place true root = .ok (.present loc e)) :
    ∃ e', d'.place true root = .ok (.present loc e') := by
  have hshape := h.left loc fun names hin hunder => by
    obtain ⟨loc', e', hpl', heq⟩ := hunder
    obtain ⟨rfl, -⟩ : loc = loc' ∧ e = e' := by simpa [hpl] using hpl'
    exact (hfiles names hin).1 (List.self_eq_append_right.mp heq)
  rw [Tree.shape_of_find? (place_present hroot hpl)] at hshape
  obtain ⟨e', hfind, htimeless⟩ := Option.map_eq_some_iff.mp hshape
  refine ⟨e', place_keeps hroot hpl (h.passable fun names hin => (hfiles names hin).2) hfind ?_⟩
  rw [← Entry.isLink_timeless, htimeless, Entry.isLink_timeless]
  exact place_not_link ht hroot hpl

/-- Where only files below it have been lost, what is found on from a path is where it was. -/
theorem Loses.under_iff {lost : List (List Text)} (h : d.Loses root lost d') (ht : d.tree.Legal)
    (ht' : d'.tree.Legal) (hroot : root.isAbsolute = true)
    (hfiles : ∀ names ∈ lost, names ≠ [] ∧ (d.below? root names).any Entry.isFile = true)
    {x : Location} : d'.Under root names x ↔ d.Under root names x := by
  constructor
  · rintro ⟨loc, e, hpl, rfl⟩
    obtain ⟨e', hpl'⟩ := place_of_keeps ht' hroot hpl h.keeps
    exact ⟨loc, e', hpl', rfl⟩
  · rintro ⟨loc, e, hpl, rfl⟩
    obtain ⟨e', hpl'⟩ := h.leads ht hroot hfiles hpl
    exact ⟨loc, e', hpl', rfl⟩

/-- Where only files below it have been lost, the rest is found on from a path as before. -/
theorem Loses.below? {lost : List (List Text)} (h : d.Loses root lost d') (ht : d.tree.Legal)
    (ht' : d'.tree.Legal) (hroot : root.isAbsolute = true)
    (hfiles : ∀ names ∈ lost, names ≠ [] ∧ (d.below? root names).any Entry.isFile = true)
    (names : List Text) :
    (d'.below? root names).map Entry.timeless
      = if names ∈ lost then none else (d.below? root names).map Entry.timeless := by
  by_cases hleads : ∃ loc e, d.place true root = .ok (.present loc e)
  · obtain ⟨loc, e, hpl⟩ := hleads
    obtain ⟨e', hpl'⟩ := h.leads ht hroot hfiles hpl
    rw [below?_of_present hpl, below?_of_present hpl']
    split
    · rename_i hin
      exact h.gone names hin _ ⟨loc, e, hpl, rfl⟩
    · rename_i hout
      apply h.left
      rintro ms hms ⟨loc', e₁, hpl₁, heq⟩
      obtain ⟨rfl, -⟩ : loc = loc' ∧ e = e₁ := by simpa [hpl] using hpl₁
      rw [List.append_cancel_left heq] at hout
      exact hout hms
  · -- a path that leads nowhere leads nowhere after something has been lost
    have hnone : d.below? root names = none := by
      refine Option.eq_none_iff_forall_ne_some.mpr fun e hfind => ?_
      obtain ⟨loc, e₀, hpl, -⟩ := below?_eq_some_iff.mp hfind
      exact hleads ⟨loc, e₀, hpl⟩
    have hnone' : d'.below? root names = none := by
      refine Option.eq_none_iff_forall_ne_some.mpr fun e hfind => ?_
      obtain ⟨loc, e₀, hpl, -⟩ := below?_eq_some_iff.mp hfind
      obtain ⟨e', hpl'⟩ := place_of_keeps ht' hroot hpl h.keeps
      exact hleads ⟨loc, e', hpl'⟩
    rw [hnone, hnone', Option.map_none, ite_self]

/-- A directory that is found on from a path and holds, at whatever depth, nothing but directories. -/
structure Hollow (d : Disk) (root : Path) (names : List Text) : Prop where
  ne_nil : names ≠ []
  there : (d.below? root names).isSome
  nothingElse : ∀ more e, d.below? root (names ++ more) = some e → e.isDirectory = true

theorem Hollow.isDirectory (h : d.Hollow root names)
    (hpl : d.place true root = .ok (.present loc e)) : d.tree.isDirectory (loc ++ names) = true := by
  obtain ⟨e', hfind⟩ := Option.isSome_iff_exists.mp h.there
  have hdir := h.nothingElse [] e' (by rwa [List.append_nil])
  rw [below?_of_present hpl] at hfind
  rw [Tree.isDirectory, hfind, Option.any_some, hdir]

end Disk

namespace Store

variable {h h' : Host} {root : Path}

/-- The files that are listed, in ascending order and each once. -/
theorem listFiles_listed (hd : h.disk.Legal) (hroot : root.isAbsolute = true) {files : List Path}
    (hr : (listFiles root).runOn h = (.ok files, h')) :
    h'.disk = h.disk ∧ ∃ listed : List (List Text), files = listed.map root.descend
      ∧ listed.Pairwise (fun a b => compare a b = .lt)
      ∧ ∀ names, names ∈ listed
        ↔ names ≠ [] ∧ (h.disk.below? root names).any Entry.isFile = true := by
  obtain ⟨hsame, found, rfl, hfound⟩ := listFiles_found hr
  refine ⟨hsame, (found.filter (·.2.isFile)).map Prod.fst, rfl, ?_⟩
  rcases hfound with ⟨loc, e, hpl, -, rfl⟩ | ⟨rfl, hno, -⟩
  · refine ⟨(hd.tree.nodes.pairwise_inside loc).sublist (List.filter_sublist.map _), fun names => ?_⟩
    rw [Disk.below?_of_present hpl, List.mem_map]
    constructor
    · rintro ⟨⟨names', e'⟩, hmem, rfl⟩
      obtain ⟨hmem, hfile⟩ := List.mem_filter.mp hmem
      obtain ⟨hne, hfind⟩ := hd.tree.nodes.mem_inside.mp hmem
      exact ⟨hne, by simpa [hfind] using hfile⟩
    · rintro ⟨hne, hfile⟩
      obtain ⟨e', hfind⟩ := Option.isSome_iff_exists.mp (Disk.isSome_of_isFile hfile)
      rw [hfind] at hfile
      exact ⟨(names, e'), List.mem_filter.mpr ⟨hd.tree.nodes.mem_inside.mpr ⟨hne, hfind⟩, hfile⟩, rfl⟩
  · refine ⟨List.Pairwise.nil, fun names => iff_of_false List.not_mem_nil ?_⟩
    rintro ⟨hne, hfile⟩
    obtain ⟨e, hfind⟩ := Option.isSome_iff_exists.mp (Option.isSome_of_any hfile)
    obtain ⟨loc, e₀, hpl, hthere⟩ := Disk.below?_eq_some_iff.mp hfind
    -- a path that something is below leads to a directory
    have hloc := hd.tree.isDirectory_of_below hne (by rw [hthere]; rfl)
    rw [Tree.isDirectory, Disk.place_present hroot hpl, Option.any_some, hno loc e₀ hpl] at hloc
    exact Bool.noConfusion hloc

/-! ## Which directories are removed -/

variable {d d₀ d₁ d' : Disk} {loc : Location} {todo removed : List (List Text)} {e : Entry}

/-- The directories that have been removed out of some: each was there, and now it is gone; nothing
else has changed. -/
structure Removes (loc : Location) (todo removed : List (List Text)) (d d' : Disk) : Prop where
  subset : ∀ names ∈ removed, names ∈ todo
  nodup : removed.Nodup
  there : ∀ names ∈ removed, d.tree.isDirectory (loc ++ names) = true
  lost : ∀ names ∈ removed, d'.tree.shape (loc ++ names) = none
  left : ∀ x, (∀ names ∈ removed, x ≠ loc ++ names) → d'.tree.shape x = d.tree.shape x

/-- A directory that is passed over changes nothing. -/
theorem Removes.skip (h : Removes loc todo removed d d') (names : List Text) :
    Removes loc (names :: todo) removed d d' where
  subset ms hms := List.mem_cons_of_mem _ (h.subset ms hms)
  nodup := h.nodup
  there := h.there
  lost := h.lost
  left := h.left

/-- One that is removed comes to those that are removed after it. -/
theorem Removes.cons {names : List Text} (hthere : d.tree.isDirectory (loc ++ names) = true)
    (hshape : ∀ x, d₁.tree.shape x = if x = loc ++ names then none else d.tree.shape x)
    (h : Removes loc todo removed d₁ d') :
    Removes loc (names :: todo) (names :: removed) d d' := by
  -- what is removed later is still there after this one, so this one is not among it
  have hlater : ∀ ms ∈ removed, loc ++ ms ≠ loc ++ names := by
    intro ms hms heq
    have hagain := Tree.isDirectory_iff_shape.mp (h.there ms hms)
    rw [hshape, if_pos heq] at hagain
    simp at hagain
  refine ⟨fun ms hms => ?_, List.nodup_cons.mpr ⟨fun hin => hlater names hin rfl, h.nodup⟩,
    fun ms hms => ?_, fun ms hms => ?_, fun x hx => ?_⟩
  · exact (List.mem_cons.mp hms).elim (fun heq => heq ▸ List.mem_cons_self ..) fun hin =>
      List.mem_cons_of_mem _ (h.subset ms hin)
  · rcases List.mem_cons.mp hms with rfl | hin
    · exact hthere
    · have hagain := Tree.isDirectory_iff_shape.mp (h.there ms hin)
      rw [hshape, if_neg (hlater ms hin)] at hagain
      exact Tree.isDirectory_iff_shape.mpr hagain
  · rcases List.mem_cons.mp hms with rfl | hin
    · rw [h.left _ fun ks hks heq => hlater ks hks heq.symm, hshape, if_pos rfl]
    · exact h.lost ms hin
  · rw [h.left x fun ms hms => hx ms (List.mem_cons_of_mem _ hms), hshape,
      if_neg (hx names (List.mem_cons_self ..))]

/-- Directories that a larger disk has are gone through, and those that are reported are removed. -/
theorem removeIfEmpty_removes (hroot : root.isAbsolute = true) (hd₀ : d₀.Legal)
    (hpl : d₀.place true root = .ok (.present loc e))
    (htodo : ∀ names ∈ todo, d₀.tree.isDirectory (loc ++ names) = true)
    (hd : h.disk.Legal) (hk : h.disk.tree.Keeps d₀.tree)
    (hr : (removeIfEmpty root todo).runOn h = (.ok removed, h')) :
    Removes loc todo removed h.disk h'.disk := by
  induction todo generalizing h removed with
  | nil =>
    obtain ⟨rfl, rfl⟩ : [] = removed ∧ h = h' := by simpa [removeIfEmpty] using hr
    exact ⟨by simp, List.nodup_nil, by simp, by simp, fun _ _ => rfl⟩
  | cons names todo ih =>
    have htodo' := fun ms hms => htodo ms (List.mem_cons_of_mem _ hms)
    obtain ⟨x, e', hfound, hcases⟩ := removeIfEmpty_cons_ok hr
    obtain ⟨rfl, -⟩ := Disk.place_descend_of_keeps hroot hd₀ hd hk hpl
      (htodo names (List.mem_cons_self ..)) hfound
    rcases hcases with ⟨hempty, h₁, more, hremove, hmore, rfl⟩ | ⟨-, hmore⟩
    · obtain ⟨now, hc⟩ := removeDirectory_ok hremove
      have hshape := Disk.shape_removeDirectory (p := root.descend names) hroot hfound hc
      have hthere : h.disk.tree.isDirectory (loc ++ names) = true := by
        have hnow := Tree.shape_of_find? (Disk.place_present (p := root.descend names) hroot hfound)
        have hbefore := Tree.isDirectory_iff_shape.mp (htodo names (List.mem_cons_self ..))
        rw [Tree.isDirectory_iff_shape, hnow, ← hk _ _ hnow, hbefore]
      have hk₁ := keeps_of_removeDirectory hremove
      exact .cons hthere hshape (ih htodo' (hd.removeDirectory hc) (hk₁.trans hk) hmore)
    · exact (ih htodo' hd hk hmore).skip names

/-- What a directory holds that is removed is directories. -/
theorem Removes.hollow (hpl : d.place true root = .ok (.present loc e))
    (htodo : ∀ names ∈ todo, names ≠ []) (h : Removes loc todo removed d d') {names : List Text}
    (hin : names ∈ removed) : d.Hollow root names := by
  have hdir := h.there names hin
  refine ⟨htodo names (h.subset names hin), ?_, fun more e' hfind => ?_⟩
  · rw [Disk.below?_of_present hpl]
    exact Tree.isSome_find?_of_isDirectory hdir
  · -- what was in the directory is gone as well, and only directories have been removed
    rw [Disk.below?_of_present hpl] at hfind
    have hgone : d'.tree.find? (loc ++ (names ++ more)) = none := by
      rw [← List.append_assoc]
      exact Tree.find?_append_of_none (Tree.shape_eq_none_iff.mp (h.lost names hin)) more
    by_cases hsome : ∃ ms ∈ removed, loc ++ (names ++ more) = loc ++ ms
    · obtain ⟨ms, hms, heq⟩ := hsome
      have hdir' := h.there ms hms
      rwa [← heq, Tree.isDirectory, hfind, Option.any_some] at hdir'
    · have hkept := h.left _ fun ms hms heq => hsome ⟨ms, hms, heq⟩
      rw [Tree.shape_eq_none_iff.mpr hgone, Tree.shape_of_find? hfind] at hkept
      simp at hkept

/-- What holds nothing but directories is removed, where directories are gone through that are all
there are, the deepest first. -/
theorem Removes.mem_of_hollow {listed : List (List Text)}
    (hpl : d.place true root = .ok (.present loc e))
    (hlisted : ∀ names, names ∈ listed ↔ names ≠ [] ∧ d.tree.isDirectory (loc ++ names) = true)
    (hshallow : ∀ names ∈ listed, names.length ≤ maxNesting)
    (hpruned : Pruned d root loc (deepestFirst listed) d d')
    (h : Removes loc (deepestFirst listed) removed d d') (names : List Text)
    (hhollow : d.Hollow root names) : names ∈ removed := by
  -- a directory that is left is not empty, and what is in it goes deeper; the search is not deeper
  -- than a bound
  induction hdepth : maxNesting - names.length using Nat.strongRecOn generalizing names with
  | _ k ih =>
    by_contra hout
    have hdir := hhollow.isDirectory hpl
    have hturn := mem_deepestFirst.mpr ((hlisted names).mpr ⟨hhollow.ne_nil, hdir⟩)
    have hdir' : d'.tree.isDirectory (loc ++ names) = true := by
      rw [Tree.isDirectory_iff_shape, h.left _ fun ms hms heq => ?_, ← Tree.isDirectory_iff_shape]
      · exact hdir
      · rw [List.append_cancel_left heq] at hout
        exact hout hms
    obtain ⟨n, hn⟩ := Tree.isEmptyAt_eq_false_iff.mp (hpruned.full names hturn hdir')
    obtain ⟨e', hfind⟩ := Option.isSome_iff_exists.mp hn
    have hbefore := hpruned.keeps _ _ (Tree.shape_of_find? hfind)
    have hinner : d.Hollow root (names ++ [n]) := by
      refine ⟨by simp, ?_, fun more e₁ hmore => ?_⟩
      · rw [Disk.below?_of_present hpl, ← List.append_assoc, Tree.isSome_iff_shape, hbefore]
        simp
      · exact hhollow.nothingElse ([n] ++ more) e₁ (by rwa [← List.append_assoc])
    have hdeep := hshallow _ ((hlisted _).mpr ⟨hinner.ne_nil, hinner.isDirectory hpl⟩)
    rw [List.length_append, List.length_singleton] at hdeep
    have hin := ih (maxNesting - (names ++ [n]).length)
      (by rw [List.length_append, List.length_singleton]; omega) (names ++ [n]) hinner rfl
    have hlost := Tree.shape_eq_none_iff.mp (h.lost _ hin)
    rw [← List.append_assoc, hfind] at hlost
    simp at hlost

/-- Removing the empty directories removes exactly those that hold nothing but directories, and
tells which, in ascending order. -/
theorem removeEmptyDirectories_hollow (hroot : root.isAbsolute = true) (hd : h.disk.Legal)
    (hshort : ∀ loc e names, h.disk.place true root = .ok (.present loc e) → names ≠ [] →
      h.disk.tree.isDirectory (loc ++ names) = true → Disk.isOverlong (root.descend names) = false)
    {dirs : List Path} (hr : (removeEmptyDirectories root).runOn h = (.ok dirs, h')) :
    ∃ emptied : List (List Text), dirs = emptied.map root.descend
      ∧ emptied.Pairwise (fun a b => compare a b = .lt)
      ∧ (∀ names, names ∈ emptied ↔ h.disk.Hollow root names)
      ∧ h.disk.Loses root emptied h'.disk := by
  obtain ⟨listed, removed, h₁, h₂, hsame, hlist, hshallow, hremove, rfl⟩ :=
    removeEmptyDirectories_runs hr
  rw [← hsame] at hd hshort ⊢
  obtain ⟨rfl, hlisted⟩ := directoriesBelow_ok hroot hd hlist
  refine ⟨sorted removed.reverse, rfl, ?_⟩
  simp only [mem_sorted, List.mem_reverse]
  by_cases hleads : ∃ loc e, h₂.disk.place true root = .ok (.present loc e)
  · obtain ⟨loc, e, hpl⟩ := hleads
    have hall : ∀ names, names ∈ listed
        ↔ names ≠ [] ∧ h₂.disk.tree.isDirectory (loc ++ names) = true := by
      intro names
      rw [hlisted]
      constructor
      · rintro ⟨loc', e', hpl', hne, hdir, -⟩
        obtain ⟨rfl, -⟩ : loc = loc' ∧ e = e' := by simpa [hpl] using hpl'
        exact ⟨hne, hdir⟩
      · rintro ⟨hne, hdir⟩
        exact ⟨loc, e, hpl, hne, hdir, hshort loc e names hpl hne hdir⟩
    have htodo : ∀ names ∈ deepestFirst listed, h₂.disk.tree.isDirectory (loc ++ names) = true :=
      fun names hin => ((hall names).mp (mem_deepestFirst.mp hin)).2
    have hpruned := removeIfEmpty_pruned hroot hd hpl htodo (pairwise_deepestFirst listed) hd
      (.refl _) hremove
    have hremoves := removeIfEmpty_removes hroot hd hpl htodo hd (.refl _) hremove
    refine ⟨pairwise_lt_sorted (List.nodup_reverse.mpr hremoves.nodup),
      fun names => ⟨hremoves.hollow hpl fun ms hms => ((hall ms).mp (mem_deepestFirst.mp hms)).1,
        hremoves.mem_of_hollow hpl hall hshallow hpruned names⟩, ?_, fun x hx => ?_⟩
    · rintro names hin x ⟨loc', e', hpl', rfl⟩
      obtain ⟨rfl, -⟩ : loc = loc' ∧ e = e' := by simpa [hpl] using hpl'
      exact hremoves.lost names (by simpa [mem_sorted] using hin)
    · exact hremoves.left x fun names hin heq =>
        hx names (by simpa [mem_sorted] using hin) ⟨loc, e, hpl, heq⟩
  · -- where the path leads nowhere, nothing is listed
    have hnil : listed = [] := List.eq_nil_iff_forall_not_mem.mpr fun names hin =>
      let ⟨loc, e, hpl, _⟩ := (hlisted names).mp hin
      hleads ⟨loc, e, hpl⟩
    subst hnil
    obtain ⟨hremoved, rfl⟩ := Prod.mk.inj hremove
    obtain rfl := Except.ok.inj hremoved
    refine ⟨List.Pairwise.nil, fun names => iff_of_false List.not_mem_nil fun hhollow => ?_,
      by simp [sorted, sortBy], fun _ _ => rfl⟩
    obtain ⟨e, hfind⟩ := Option.isSome_iff_exists.mp hhollow.there
    obtain ⟨loc, e₀, hpl, -⟩ := Disk.below?_eq_some_iff.mp hfind
    exact hleads ⟨loc, e₀, hpl⟩

end Store

end Provenance
