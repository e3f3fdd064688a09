/-
Disks on which a sweep has nothing to do.

A sweep that ends without failures leaves a disk on which a second one would find
nothing to delete and no empty directory to remove, and on which no call that it makes
would fail. What has to be known for that is gathered in `Layout.Settled`. It says
nothing about the sweep that came before, so that it can be followed through what is
done to the disk afterwards: one line more at a location that is not below the output
directory.
-/
import Provenance.Proofs.Update.Pruning

set_option autoImplicit false

namespace Provenance

open Action Host

/-! ## Calls that find nothing to do -/

namespace Store

variable {h h' : Host} {root : Path} {files : List Path} {loc : Location} {e : Entry}

/-- Where the files could be listed, the path is not too long, and neither is that of any directory
below it. -/
theorem listFiles_short (hroot : root.isAbsolute = true) (hd : h.disk.Legal)
    (hr : (listFiles root).runOn h = (.ok files, h')) :
    (∀ er, h.disk.place true root = .error er → Disk.meansAbsent er = true)
      ∧ ∀ loc e names, h.disk.place true root = .ok (.present loc e) → names ≠ [] →
        h.disk.tree.isDirectory (loc ++ names) = true →
        Disk.isOverlong (root.descend names) = false := by
  obtain ⟨u, h₁, hfault, hrest⟩ := bind_ok_iff.mp hr
  have hsame := disk_of_meetFault hfault
  obtain ⟨found, h₂, hbelow, hend⟩ := bind_ok_iff.mp hrest
  obtain ⟨rfl, hfound⟩ := below_ok hbelow
  rw [hsame] at hfound
  dsimp only at hend
  split at hend
  · simp at hend
  rename_i hshort
  rcases hfound with ⟨loc, e, hpl, -, rfl⟩ | ⟨-, hno, habsent⟩
  · refine ⟨by simp [hpl], fun loc' e' names hpl' hne hdir => ?_⟩
    obtain ⟨rfl, rfl⟩ : loc = loc' ∧ e = e' := by simpa [hpl] using hpl'
    obtain ⟨time, hfind⟩ := Tree.isDirectory_iff.mp hdir
    have hmem := hd.tree.nodes.mem_inside.mpr ⟨hne, hfind⟩
    -- it is among the directories that were gone through for one that is too long
    have hlisted := List.find?_eq_none.mp hshort (root.descend names)
      (List.mem_map.mpr ⟨(names, .directory time), List.mem_filter.mpr ⟨hmem, rfl⟩, rfl⟩)
    simpa using hlisted
  · refine ⟨habsent, fun loc e names hpl hne hdir => ?_⟩
    have hloc := hd.tree.isDirectory_of_below hne (Tree.isSome_find?_of_isDirectory hdir)
    rw [Tree.isDirectory, Disk.place_present hroot hpl, Option.any_some, hno loc e hpl] at hloc
    exact Bool.noConfusion hloc

/-- Where the path is not too long, nor that of a directory below it, the files can be listed. -/
theorem listFiles_idle (hfaults : h.faults = []) (hd : h.disk.Legal)
    (hfound : ∀ er, h.disk.place true root = .error er → Disk.meansAbsent er = true)
    (hshort : ∀ loc e names, h.disk.place true root = .ok (.present loc e) → names ≠ [] →
      h.disk.tree.isDirectory (loc ++ names) = true → Disk.isOverlong (root.descend names) = false) :
    ∃ files, (listFiles root).runOn h = (.ok files, h) := by
  obtain ⟨found, hrun⟩ : ∃ found, (below root).runOn h = (.ok found, h) := by
    rw [below_eq]
    exact inDirectory_idle hfound fun l => ⟨_, rfl⟩
  have hfine : ∀ ne ∈ found, ne.2.isDirectory = true → Disk.isOverlong (root.descend ne.1) = false := by
    rintro ⟨names, e⟩ hmem hdir
    rcases (below_ok hrun).2 with ⟨loc, e', hpl, -, rfl⟩ | ⟨rfl, -⟩
    · obtain ⟨hne, hfind⟩ := hd.tree.nodes.mem_inside.mp hmem
      exact hshort loc e' names hpl hne (by rw [Tree.isDirectory, hfind]; exact hdir)
    · exact absurd hmem List.not_mem_nil
  have hnone : ((found.filter (·.2.isDirectory)).map fun ne => root.descend ne.1).find?
      Disk.isOverlong = none := by
    rw [List.find?_eq_none]
    intro p hp
    obtain ⟨ne, hne, rfl⟩ := List.mem_map.mp hp
    obtain ⟨hmem, hdir⟩ := List.mem_filter.mp hne
    rw [hfine ne hmem hdir]
    exact Bool.false_ne_true
  unfold listFiles
  rw [runOn_bind_ok (runOn_meetFault_nil hfaults _ _), runOn_bind_ok hrun]
  dsimp only
  rw [hnone]
  exact ⟨_, rfl⟩

/-- Directories that are found and not empty are passed over. -/
theorem removeIfEmpty_idle {todo : List (List Text)} (hfull : ∀ names ∈ todo, ∃ x e,
      h.disk.place true (root.descend names) = .ok (.present x e)
        ∧ h.disk.tree.isEmptyAt x = false) :
    (removeIfEmpty root todo).runOn h = (.ok [], h) := by
  induction todo with
  | nil => rfl
  | cons names todo ih =>
    obtain ⟨x, e, hpl, hx⟩ := hfull names (List.mem_cons_self ..)
    have hask : (Host.ask (root.descend names) (·.stat (root.descend names))).runOn h
        = (.ok (x, e), h) := by
      rw [runOn_ask, Disk.stat_of_present hpl]
      rfl
    unfold removeIfEmpty
    rw [runOn_bind_ok hask]
    dsimp only
    rw [runOn_bind_ok (runOn_get h), hx]
    exact ih fun ms hms => hfull ms (List.mem_cons_of_mem _ hms)

/-- Where each directory below the path is found, lies not too deep and is not empty, none is
removed. -/
theorem removeEmptyDirectories_idle (hroot : root.isAbsolute = true) (hfaults : h.faults = [])
    (hd : h.disk.Legal)
    (hfound : ∀ er, h.disk.place true root = .error er → Disk.meansAbsent er = true)
    (hfull : ∀ loc e names, h.disk.place true root = .ok (.present loc e) → names ≠ [] →
      h.disk.tree.isDirectory (loc ++ names) = true → names.length ≤ maxNesting
        ∧ h.disk.tree.isEmptyAt (loc ++ names) = false
        ∧ ∃ e', h.disk.place true (root.descend names) = .ok (.present (loc ++ names) e')) :
    (removeEmptyDirectories root).runOn h = (.ok [], h) := by
  obtain ⟨listed, hrun⟩ : ∃ listed, (directoriesBelow root).runOn h = (.ok listed, h) := by
    rw [directoriesBelow_eq]
    exact inDirectory_idle hfound fun l => ⟨_, rfl⟩
  have hfine : ∀ names ∈ listed, names.length ≤ maxNesting ∧ ∃ x e,
      h.disk.place true (root.descend names) = .ok (.present x e)
        ∧ h.disk.tree.isEmptyAt x = false := by
    intro names hin
    obtain ⟨loc, e, hpl, hne, hdir, -⟩ := ((directoriesBelow_ok hroot hd hrun).2 names).mp hin
    obtain ⟨hshallow, hempty, e', hthere⟩ := hfull loc e names hpl hne hdir
    exact ⟨hshallow, loc ++ names, e', hthere, hempty⟩
  have hshallow : listed.any (maxNesting < ·.length) = false := by
    rw [List.any_eq_false]
    intro names hin
    simpa using (hfine names hin).1
  have hpassed : (removeIfEmpty root (deepestFirst listed)).runOn h = (.ok [], h) :=
    removeIfEmpty_idle fun names hin => (hfine names (mem_deepestFirst.mp hin)).2
  unfold removeEmptyDirectories
  rw [runOn_bind_ok (runOn_meetFault_nil hfaults _ _), runOn_bind_ok hrun]
  dsimp only
  rw [hshallow]
  exact runOn_bind_ok hpassed

end Store

namespace Update

variable {l : Layout} {entries : Entries} {h h' : Host} {d d' : Disk} {p : Path} {loc x : Location}
  {e : Entry} {names : List Text}

/-! ## Settled disks -/

/-- A sweep would find nothing to do on the disk, and nothing would keep it from finding that. -/
structure Layout.Settled (l : Layout) (entries : Entries) (d : Disk) : Prop where
  found : ∀ er, d.place true l.outputRoot = .error er → Disk.meansAbsent er = true
  short : ∀ loc e names, d.place true l.outputRoot = .ok (.present loc e) → names ≠ [] →
    d.tree.isDirectory (loc ++ names) = true → Disk.isOverlong (l.outputRoot.descend names) = false
  sourced : ∀ p, d.HoldsFile l.outputRoot p → l.HasSource entries p
  full : l.prune = true → ∀ loc e names, d.place true l.outputRoot = .ok (.present loc e) →
    names ≠ [] → d.tree.isDirectory (loc ++ names) = true → names.length ≤ maxNesting
      ∧ d.tree.isEmptyAt (loc ++ names) = false
      ∧ ∃ e', d.place true (l.outputRoot.descend names) = .ok (.present (loc ++ names) e')

/-- A path below the project root is made out to its key. -/
theorem runOn_key {p : Path} {key : Text} (hkey : p.key l.projectRoot = .ok key) (h : Host) :
    (l.key p).runOn h = (.ok key, h) := by
  rw [Layout.key, hkey]
  rfl

/-- Files that all have a source stay. -/
theorem sweepFiles_idle {files : List Path} (hsourced : ∀ p ∈ files, l.HasSource entries p) :
    (sweepFiles l entries files).runOn h = (.ok ([], []), h) := by
  induction files with
  | nil => rfl
  | cons file files ih =>
    obtain ⟨key, hkey, hne⟩ := hsourced file (List.mem_cons_self ..)
    unfold sweepFiles
    rw [runOn_bind_ok (runOn_key hkey h)]
    dsimp only
    rw [if_pos hne]
    exact ih fun p hp => hsourced p (List.mem_cons_of_mem _ hp)

/-- The directories that have been removed are reported by their keys. -/
theorem pruneDirs_of_ok {dirs : List Path} {keys : List Text}
    (hremove : (Store.removeEmptyDirectories l.outputRoot).runOn h = (.ok dirs, h'))
    (hkeys : (l.keys dirs).runOn h' = (.ok keys, h')) :
    (pruneDirs l).runOn h = (.ok (keys, []), h') := by
  unfold pruneDirs
  rw [runOn_bind_ok (tolerate_of_ok hremove)]
  dsimp only
  rw [runOn_bind_ok hkeys]
  rfl

section Sweep

variable {files : List Path} {deleted pruned : List Text} {failures more : List SweepFailure}
  {h₁ h₂ h₃ : Host} {f : Failure}
  (hlist : (Store.listFiles l.outputRoot).runOn h = (.ok files, h₁))
  (hswept : (sweepFiles l entries files).runOn h₁ = (.ok (deleted, failures), h₂))
include hlist hswept

/-- A sweep that is not to remove directories ends with what it did to the files. -/
theorem sweep_of_kept (hprune : ¬l.prune = true) :
    (sweep l entries).runOn h = (.ok ⟨deleted, [], failures⟩, h₂) := by
  rw [sweep, runOn_bind_ok (tolerate_of_ok hlist)]
  dsimp only
  rw [runOn_bind_ok hswept]
  dsimp only
  rw [if_neg hprune]
  rfl

/-- One that is to ends as removing them does. -/
theorem sweep_of_pruned (hprune : l.prune = true)
    (hrun : (pruneDirs l).runOn h₂ = (.ok (pruned, more), h₃)) :
    (sweep l entries).runOn h = (.ok ⟨deleted, pruned, failures ++ more⟩, h₃) := by
  rw [sweep, runOn_bind_ok (tolerate_of_ok hlist)]
  dsimp only
  rw [runOn_bind_ok hswept]
  dsimp only
  rw [if_pos hprune, runOn_bind_ok hrun]
  rfl

theorem sweep_of_tripped (hprune : l.prune = true)
    (hrun : (pruneDirs l).runOn h₂ = (.error f, h₃)) :
    (sweep l entries).runOn h = (.error f, h₃) := by
  rw [sweep, runOn_bind_ok (tolerate_of_ok hlist)]
  dsimp only
  rw [runOn_bind_ok hswept]
  dsimp only
  rw [if_pos hprune, runOn_bind_error hrun]

end Sweep

/-- On a settled disk a sweep does nothing. -/
theorem Layout.Settled.sweep (hset : l.Settled entries h.disk) (hs : l.Sound)
    (hfaults : h.faults = []) (hd : h.disk.Legal) :
    (sweep l entries).runOn h = (.ok ⟨[], [], []⟩, h) := by
  have habs := (hs.output.straight hs.root).isAbsolute
  obtain ⟨files, hlist⟩ := Store.listFiles_idle hfaults hd hset.found hset.short
  have hfiles := (Store.listFiles_ok hd habs hlist).2
  have hspared : (sweepFiles l entries files).runOn h = (.ok ([], []), h) :=
    sweepFiles_idle fun p hp => hset.sourced p ((hfiles p).mp hp)
  by_cases hprune : l.prune = true
  · have hkept := Store.removeEmptyDirectories_idle habs hfaults hd hset.found (hset.full hprune)
    exact sweep_of_pruned hlist hspared hprune (pruneDirs_of_ok hkept rfl)
  · exact sweep_of_kept hlist hspared hprune

/-- A sweep without failures settles the disk. -/
theorem settled_of_sweep (hs : l.Sound) (hd : h.disk.Legal) {swept : SweepResult}
    (hr : (sweep l entries).runOn h = (.ok swept, h')) (hclean : swept.failures = []) :
    l.Settled entries h'.disk := by
  have habs := (hs.output.straight hs.root).isAbsolute
  have hd' : h'.disk.Legal := (staysLegal_sweep l entries).of_run hr hd
  have hshrinks : h'.disk.tree.Keeps h.disk.tree :=
    (respects_sweep stepwise_shrinks l entries shrinks_delete
      (fun _ => shrinks_removeDirectory _)).of_run hr
  obtain ⟨files, deleted, h₁, h₂, hlist, hdelete, hprune⟩ := sweep_runs hr hclean
  obtain ⟨hfound, hshort⟩ := Store.listFiles_short habs hd hlist
  have hback := hshrinks.passable
  have hfound' : ∀ er, h'.disk.place true l.outputRoot = .error er → Disk.meansAbsent er = true := by
    intro er her
    rcases Disk.place_error habs her with rfl | habsent
    · exact hfound _ (Disk.place_nameTooLong habs her hback)
    · exact habsent
  have hshort' : ∀ loc e names, h'.disk.place true l.outputRoot = .ok (.present loc e) →
      names ≠ [] → h'.disk.tree.isDirectory (loc ++ names) = true →
      Disk.isOverlong (l.outputRoot.descend names) = false := by
    intro loc e names hpl hne hdir
    obtain ⟨e₀, hpl₀⟩ := Disk.place_of_keeps hd'.tree habs hpl hshrinks
    exact hshort loc e₀ names hpl₀ hne (hback.directory _ hdir)
  refine ⟨hfound', hshort', fun p hp => ((sweep_ok hs hd hr hclean).mp hp).2.1, ?_⟩
  intro hyes loc e names hpl hne hdir
  rcases hprune with ⟨hno, -⟩ | ⟨-, dirs, hremove⟩
  · rw [hyes] at hno
    exact Bool.noConfusion hno
  have hd₁ : h₁.disk.Legal := by
    rw [(Store.listFiles_ok hd habs hlist).1]
    exact hd
  have hd₂ : h₂.disk.Legal :=
    (respects_sweepFiles stepwise_staysLegal l entries files
      (fun p _ _ _ _ => Store.staysLegal_delete p)).of_run hdelete hd₁
  obtain ⟨hshallow, hempty, e₁, hpl₁⟩ := Store.removeEmptyDirectories_ok habs hd₂ hremove hpl hne
    hdir (hshort' loc e names hpl hne hdir)
  refine ⟨hshallow, hempty, ?_⟩
  have hup : ∀ n ∈ names, n ≠ Path.upName := fun n hn =>
    (hd'.tree.nodes.isName (Tree.isSome_find?_of_isDirectory hdir) n
      (List.mem_append_right _ hn)).2
  rcases Disk.place_descend_directory hd'.tree habs hpl hup hdir with hthere | hlong
  · exact hthere
  · -- it was found before anything was removed
    have hpruned : h'.disk.tree.Keeps h₂.disk.tree :=
      (Store.respects_removeEmptyDirectories stepwise_shrinks l.outputRoot
        (fun _ => shrinks_removeDirectory _)).of_run hremove
    have hlong₂ := Disk.place_nameTooLong (p := l.outputRoot.descend names) habs hlong hpruned.passable
    rw [hlong₂] at hpl₁
    simp at hpl₁

/-- Text that is appended somewhere else leaves a settled disk settled. -/
theorem Layout.Settled.appended (hset : l.Settled entries d) (hs : l.Sound) (hd' : d'.Legal)
    {path : Path} {bytes : Bytes} (happ : Disk.Appended d d' path bytes x e)
    (hoff : ∀ loc e₀ names, d'.place true l.outputRoot = .ok (.present loc e₀) → names ≠ [] →
      x ≠ loc ++ names) :
    l.Settled entries d' := by
  have habs := (hs.output.straight hs.root).isAbsolute
  -- a directory that the output directory's path leads to now is the one it led to before
  have hsame : ∀ loc e₀ names, d'.place true l.outputRoot = .ok (.present loc e₀) → names ≠ [] →
      (d'.tree.find? (loc ++ names)).isSome → ∃ e₁, d.place true l.outputRoot = .ok (.present loc e₁) := by
    intro loc e₀ names hpl hne hsome
    have hloc := happ.back.directory loc (hd'.tree.isDirectory_of_below hne hsome)
    obtain ⟨time, hfind⟩ := Tree.isDirectory_iff.mp hloc
    exact ⟨_, Disk.place_keeps habs hpl happ.back hfind rfl⟩
  refine ⟨fun er her => ?_, fun loc e₀ names hpl hne hdir => ?_, fun p hp => ?_,
    fun hprune loc e₀ names hpl hne hdir => ?_⟩
  · rcases Disk.place_error habs her with rfl | habsent
    · exact hset.found _ (Disk.place_nameTooLong habs her happ.back)
    · exact habsent
  · obtain ⟨e₁, hpl₁⟩ := hsame loc e₀ names hpl hne (Tree.isSome_find?_of_isDirectory hdir)
    exact hset.short loc e₁ names hpl₁ hne (happ.back.directory _ hdir)
  · obtain ⟨loc, e₀, names, hpl, hne, rfl, hfile⟩ := hp
    obtain ⟨e₁, hpl₁⟩ := hsame loc e₀ names hpl hne (Disk.isSome_of_isFile hfile)
    refine hset.sourced _ ⟨loc, e₁, names, hpl₁, hne, rfl, ?_⟩
    rwa [Tree.isFile_iff_shape, ← happ.shape _ (hoff loc e₀ names hpl hne).symm,
      ← Tree.isFile_iff_shape]
  · obtain ⟨e₁, hpl₁⟩ := hsame loc e₀ names hpl hne (Tree.isSome_find?_of_isDirectory hdir)
    obtain ⟨hshallow, hempty, e₂, hpl₂⟩ :=
      hset.full hprune loc e₁ names hpl₁ hne (happ.back.directory _ hdir)
    obtain ⟨n, hn⟩ := Tree.isEmptyAt_eq_false_iff.mp hempty
    obtain ⟨time, hfind⟩ := Tree.isDirectory_iff.mp hdir
    refine ⟨hshallow, Tree.isEmptyAt_eq_false_iff.mpr ⟨n, ?_⟩, _, Disk.place_keeps
      (p := l.outputRoot.descend names) habs hpl₂ happ.onward hfind rfl⟩
    have hother : loc ++ names ++ [n] ≠ x := by
      rw [List.append_assoc]
      exact (hoff loc e₀ (names ++ [n]) hpl (by simp)).symm
    rwa [Tree.isSome_iff_shape, happ.shape _ hother, ← Tree.isSome_iff_shape]

end Update

end Provenance
