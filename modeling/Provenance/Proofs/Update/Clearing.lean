/-
What a sweep without failures leaves.

A sweep lists the files below the output directory, deletes those that have no source
and then, if it is to, removes the directories that are empty. Nothing is ever made.
Where no call has failed, a file is left exactly if it was there and has a source.

Deleting a file takes no directory away, so that every listed path still leads to its
file when its turn comes. Removing directories is another matter: it takes away no
file, but the output directory may be found by way of a link that goes through a
directory below it, and then that path leads nowhere any more.
-/
import Provenance.Proofs.Disk.Listing
import Provenance.Proofs.Update.Layout
import Provenance.Proofs.Update.Sweep

set_option autoImplicit false

namespace Provenance

open Action Host

/-! ## Listing -/

namespace Store

variable {h h' : Host} {root p : Path}

/-- What is listed below a path is what the tree holds below the directory that the path leads to;
nothing if it leads to none. -/
theorem below_ok {found : List (List Text × Entry)}
    (hr : (below root).runOn h = (.ok found, h')) :
    h' = h ∧ ((∃ l e, h.disk.place true root = .ok (.present l e) ∧ e.isDirectory = true
          ∧ found = h.disk.tree.inside l)
      ∨ (found = [] ∧ (∀ l e, h.disk.place true root = .ok (.present l e) → e.isDirectory = false)
        ∧ ∀ er, h.disk.place true root = .error er → Disk.meansAbsent er = true)) := by
  rw [below_eq] at hr
  rcases inDirectory_ok hr with ⟨l, e, hpl, hdir, hrun⟩ | ⟨hfound, hsame, hno, habsent⟩
  · obtain ⟨hfound, rfl⟩ := Prod.mk.inj hrun
    exact ⟨rfl, .inl ⟨l, e, hpl, hdir, (Except.ok.inj hfound).symm⟩⟩
  · exact ⟨hsame, .inr ⟨hfound, hno, habsent⟩⟩

/-- The files that are listed are those among what is found below the path. -/
theorem listFiles_found {files : List Path} (hr : (listFiles root).runOn h = (.ok files, h')) :
    h'.disk = h.disk ∧ ∃ found, files = ((found.filter (·.2.isFile)).map Prod.fst).map root.descend
      ∧ ((∃ l e, h.disk.place true root = .ok (.present l e) ∧ e.isDirectory = true
          ∧ found = h.disk.tree.inside l)
        ∨ (found = [] ∧ (∀ l e, h.disk.place true root = .ok (.present l e) → e.isDirectory = false)
          ∧ ∀ er, h.disk.place true root = .error er → Disk.meansAbsent er = true)) := by
  obtain ⟨u, h₁, hfault, hrest⟩ := bind_ok_iff.mp hr
  have hsame := disk_of_meetFault hfault
  obtain ⟨found, h₂, hbelow, hend⟩ := bind_ok_iff.mp hrest
  obtain ⟨rfl, hfound⟩ := below_ok hbelow
  dsimp only at hend
  split at hend
  · simp at hend
  obtain ⟨rfl, rfl⟩ : _ = files ∧ h₂ = h' := by simpa using hend
  rw [hsame] at hfound
  exact ⟨hsame, found, by rw [List.map_map]; rfl, hfound⟩

/-- The files that are listed are those below the path. -/
theorem listFiles_ok (hd : h.disk.Legal) (hroot : root.isAbsolute = true) {files : List Path}
    (hr : (listFiles root).runOn h = (.ok files, h')) :
    h'.disk = h.disk ∧ ∀ p, p ∈ files ↔ h.disk.HoldsFile root p := by
  obtain ⟨hsame, found, rfl, hfound⟩ := listFiles_found hr
  refine ⟨hsame, fun p => ?_⟩
  rw [List.map_map]
  simp only [List.mem_map, List.mem_filter, Function.comp_apply]
  rcases hfound with ⟨l, e, hpl, -, rfl⟩ | ⟨rfl, hno, -⟩
  · constructor
    · rintro ⟨⟨names, e'⟩, ⟨hmem, hfile⟩, rfl⟩
      obtain ⟨hne, hfind⟩ := hd.tree.nodes.mem_inside.mp hmem
      exact ⟨l, e, names, hpl, hne, rfl, by simpa [hfind] using hfile⟩
    · rintro ⟨l', e', names, hpl', hne, rfl, hfile⟩
      obtain ⟨rfl, rfl⟩ : l = l' ∧ e = e' := by simpa [hpl] using hpl'
      obtain ⟨e₁, hfind⟩ := Option.isSome_iff_exists.mp (Disk.isSome_of_isFile hfile)
      rw [hfind] at hfile
      exact ⟨(names, e₁), ⟨hd.tree.nodes.mem_inside.mpr ⟨hne, hfind⟩, by simpa using hfile⟩, rfl⟩
  · apply iff_of_false (by simp)
    intro hholds
    obtain ⟨l, e, names, hpl, hdir, -⟩ := hholds.cases hd.tree
    have hfind := Disk.place_present hroot hpl
    have hnot := hno l e hpl
    simp [Tree.isDirectory, hfind, hnot] at hdir

/-- A file that is deleted has been unlinked. -/
theorem delete_ok {u : Unit} (hr : (delete p).runOn h = (.ok u, h')) :
    ∃ now, h.disk.unlink p now = .ok h'.disk := method_ok hr

/-- A file that cannot be deleted leaves the disk as it is. -/
theorem disk_of_delete_error {f : Failure} (hr : (delete p).runOn h = (.error f, h')) :
    h'.disk = h.disk := disk_of_method_error hr

end Store

namespace Update

variable {l : Layout} {entries : Entries} {h h' : Host} {d d' : Disk} {p : Path} {loc x : Location}
  {t t' : Tree}

/-- What a location below the project root is known by has a source in the entries. -/
def Layout.HasSource (l : Layout) (entries : Entries) (p : Path) : Prop :=
  ∃ key, p.key l.projectRoot = .ok key ∧ entries.sourcesOf key ≠ []

/-! ## Deleting files -/

/-- A tree without a file that another one has lets everything through that the other does. -/
theorem passable_of_file_removed (hx : (t.find? x).any Entry.isFile = true)
    (hs : ∀ y, t'.shape y = if y = x then none else t.shape y) : Disk.Passable t t' := by
  obtain ⟨content, hfile⟩ := Tree.isFile_iff_shape.mp hx
  constructor
  · intro y hy
    rw [Tree.isDirectory_iff_shape] at hy ⊢
    rw [hs, if_neg, hy]
    rintro rfl
    simp [hy] at hfile
  · intro y target hy
    rw [Tree.link_iff_shape] at hy ⊢
    rw [hs, if_neg, hy]
    rintro rfl
    simp [hy] at hfile

/-- A location below the output directory at which a listed file has no source. -/
def Doomed (l : Layout) (entries : Entries) (loc : Location) (files : List Path) (x : Location) :
    Prop :=
  ∃ names, x = loc ++ names ∧ l.outputRoot.descend names ∈ files
    ∧ ¬ l.HasSource entries (l.outputRoot.descend names)

/-- A path goes on from the output directory to a file, or to where one was. -/
def Layout.Lists (l : Layout) (t : Tree) (loc : Location) (p : Path) : Prop :=
  ∃ names, names ≠ [] ∧ (∀ n ∈ names, Path.IsName n) ∧ p = l.outputRoot.descend names
    ∧ t.isDirectory (loc ++ names.dropLast) = true ∧ (t.find? (loc ++ names)).all Entry.isFile = true

/-- A path goes on from the output directory to the files below it. -/
theorem lists_of_holdsFile (hd : d.Legal) {e : Entry}
    (hroot : d.place true l.outputRoot = .ok (.present loc e)) (hp : d.HoldsFile l.outputRoot p) :
    l.Lists d.tree loc p := by
  obtain ⟨loc', e', names, hroot', -, hne, hn, hpath, hfile⟩ := hp.cases hd.tree
  obtain ⟨rfl, rfl⟩ : loc = loc' ∧ e = e' := by simpa [hroot] using hroot'
  refine ⟨names, hne, hn, hpath, ?_, ?_⟩
  · apply hd.tree.isDirectory_of_below (m := [names.getLast hne]) (by simp)
    rw [List.append_assoc, List.dropLast_concat_getLast]
    exact Disk.isSome_of_isFile hfile
  · cases hf : d.tree.find? (loc ++ names) with
    | none => rfl
    | some e₁ => simpa [hf] using hfile

/-- Taking files away leaves paths to files or to where they were. -/
theorem Layout.Lists.removed (hl : l.Lists t loc p) (hk : Disk.Passable t t')
    (hs : ∀ y, t'.shape y = if y = x then none else t.shape y) : l.Lists t' loc p := by
  obtain ⟨names, hne, hn, hp, hdir, hfile⟩ := hl
  refine ⟨names, hne, hn, hp, hk.directory _ hdir, ?_⟩
  have hshape := hs (loc ++ names)
  split at hshape
  · simp [Tree.shape_eq_none_iff.mp hshape]
  · rw [Tree.shape, Tree.shape] at hshape
    rcases hf' : t'.find? (loc ++ names) with _ | e'
    · rfl
    · rcases hf : t.find? (loc ++ names) with _ | e
      · simp [hf', hf] at hshape
      · rw [hf', hf] at hshape
        have htimeless : e'.timeless = e.timeless := by simpa using hshape
        rw [hf] at hfile
        have hisFile : e.isFile = true := by simpa using hfile
        rw [Option.all_some, ← Entry.isFile_timeless, htimeless, Entry.isFile_timeless, hisFile]

/-- Unlinking a listed file takes it away from its location, and nothing else. -/
theorem unlink_listed (hs : l.Sound) (hd : d.Legal) {e : Entry}
    (hroot : d.place true l.outputRoot = .ok (.present loc e)) {names : List Text}
    (hne : names ≠ []) (hn : ∀ n ∈ names, Path.IsName n)
    (hdir : d.tree.isDirectory (loc ++ names.dropLast) = true)
    (hfile : (d.tree.find? (loc ++ names)).all Entry.isFile = true) {now : Int}
    (hunlink : d.unlink (l.outputRoot.descend names) now = .ok d') :
    d'.Legal ∧ (d.tree.find? (loc ++ names)).any Entry.isFile = true
      ∧ ∀ y, d'.tree.shape y = if y = loc ++ names then none else d.tree.shape y := by
  have habs := (hs.output.straight hs.root).isAbsolute
  obtain ⟨x, e', hpl, he', htree⟩ := Disk.unlink_ok hunlink
  obtain rfl := Disk.place_descend hd.tree habs hroot hne (fun n hmem => (hn n hmem).2) hdir hpl
  have hfind := Disk.place_present_of_not_directory hpl he'
  refine ⟨hd.unlink hunlink, by simpa [hfind] using hfile, fun y => ?_⟩
  have hempty := hd.tree.isEmptyAt (l := loc ++ names) (by simp [Tree.isDirectory, hfind, he'])
  rcases List.eq_nil_or_concat names with hnil | ⟨ms, n, hcons⟩
  · exact absurd hnil hne
  · rw [List.concat_eq_append] at hcons
    subst hcons
    rw [← List.append_assoc] at hempty htree ⊢
    rw [htree, Disk.tree_withTree]
    exact Tree.shape_remove_of_empty hempty now y

/-- Deleting a listed file takes it away from its location, and nothing else. -/
theorem delete_listed (hs : l.Sound) (hd : h.disk.Legal) {e : Entry}
    (hroot : h.disk.place true l.outputRoot = .ok (.present loc e)) {names : List Text}
    (hne : names ≠ []) (hn : ∀ n ∈ names, Path.IsName n)
    (hdir : h.disk.tree.isDirectory (loc ++ names.dropLast) = true)
    (hfile : (h.disk.tree.find? (loc ++ names)).all Entry.isFile = true) {u : Unit}
    (hr : (Store.delete (l.outputRoot.descend names)).runOn h = (.ok u, h')) :
    h'.disk.Legal ∧ (h.disk.tree.find? (loc ++ names)).any Entry.isFile = true
      ∧ ∀ y, h'.disk.tree.shape y = if y = loc ++ names then none else h.disk.tree.shape y := by
  obtain ⟨now, hunlink⟩ := Store.delete_ok hr
  exact unlink_listed hs hd hroot hne hn hdir hfile hunlink

/-- What going through some listed files has come to: those that are gone had no source and are
reported as deleted, a file without a source that is not gone is among the failures, and nothing else
has changed. -/
structure SweptFiles (l : Layout) (entries : Entries) (loc : Location) (files gone : List Path)
    (deleted : List Text) (failures : List SweepFailure) (d d' : Disk) : Prop where
  sublist : gone.Sublist files
  keys : deleted.map Except.ok = gone.map (·.key l.projectRoot)
  sourceless : ∀ p ∈ gone, ¬ l.HasSource entries p
  covered : ∀ p ∈ files, ¬ l.HasSource entries p →
    p ∈ gone ∨ ∃ f ∈ failures, p.key l.projectRoot = .ok f.key
  lost : ∀ names, l.outputRoot.descend names ∈ gone → d'.tree.shape (loc ++ names) = none
  left : ∀ x, (∀ names, l.outputRoot.descend names ∈ gone → x ≠ loc ++ names) →
    d'.tree.shape x = d.tree.shape x

section SweptFiles

variable {file : Path} {files gone : List Path} {key : Text} {deleted : List Text}
  {failures : List SweepFailure} {names : List Text}

/-- A file that stays comes before the others: one with a source, or one that is among the failures. -/
theorem SweptFiles.stays (hrest : SweptFiles l entries loc files gone deleted failures d d')
    {failures' : List SweepFailure} (hsub : ∀ f ∈ failures, f ∈ failures')
    (hfile : ¬ l.HasSource entries file → ∃ f ∈ failures', file.key l.projectRoot = .ok f.key) :
    SweptFiles l entries loc (file :: files) gone deleted failures' d d' where
  sublist := hrest.sublist.cons file
  keys := hrest.keys
  sourceless := hrest.sourceless
  covered p hp hno := by
    rcases List.mem_cons.mp hp with rfl | hp
    · exact .inr (hfile hno)
    · exact (hrest.covered p hp hno).imp id fun ⟨f, hf, hkey⟩ => ⟨f, hsub f hf, hkey⟩
  lost := hrest.lost
  left := hrest.left

/-- A file that is deleted comes before the others. -/
theorem SweptFiles.goes {d₁ : Disk}
    (hrest : SweptFiles l entries loc files gone deleted failures d₁ d')
    (hkey : (l.outputRoot.descend names).key l.projectRoot = .ok key)
    (hno : ¬ l.HasSource entries (l.outputRoot.descend names))
    (hshape : ∀ y, d₁.tree.shape y = if y = loc ++ names then none else d.tree.shape y) :
    SweptFiles l entries loc (l.outputRoot.descend names :: files)
      (l.outputRoot.descend names :: gone) (key :: deleted) failures d d' where
  sublist := hrest.sublist.cons_cons _
  keys := by rw [List.map_cons, List.map_cons, hrest.keys, hkey]
  sourceless := List.forall_mem_cons.mpr ⟨hno, hrest.sourceless⟩
  covered p hp hno' := by
    rcases List.mem_cons.mp hp with rfl | hp
    · exact .inl (List.mem_cons_self ..)
    · exact (hrest.covered p hp hno').imp (List.mem_cons_of_mem _) id
  lost ms hms := by
    by_cases hlater : l.outputRoot.descend ms ∈ gone
    · exact hrest.lost ms hlater
    · -- it is gone already, and nothing that is deleted later is at its location
      obtain heq := (List.mem_cons.mp hms).resolve_right hlater
      have hsame : ms = names := by simpa [Path.descend] using heq
      rw [hrest.left _ fun ks hks heq' => hlater ?_, hshape, if_pos (by rw [hsame])]
      rwa [← List.append_cancel_left heq'] at hks
  left x hx := by
    rw [hrest.left x fun ms hms => hx ms (List.mem_cons_of_mem _ hms), hshape,
      if_neg (hx names (List.mem_cons_self ..))]

end SweptFiles

/-- Going through listed files deletes those without a source, but for the ones that are reported. -/
theorem sweepFiles_swept (hs : l.Sound) (hd : h.disk.Legal) {e : Entry}
    (hroot : h.disk.place true l.outputRoot = .ok (.present loc e))
    (hloc : h.disk.tree.isDirectory loc = true) {files : List Path}
    (hfiles : ∀ p ∈ files, l.Lists h.disk.tree loc p) {deleted : List Text}
    {failures : List SweepFailure}
    (hr : (sweepFiles l entries files).runOn h = (.ok (deleted, failures), h')) :
    ∃ gone, SweptFiles l entries loc files gone deleted failures h.disk h'.disk := by
  induction files generalizing h e deleted failures with
  | nil =>
    obtain ⟨⟨rfl, rfl⟩, rfl⟩ : ([] = deleted ∧ [] = failures) ∧ h = h' := by
      simpa [sweepFiles] using hr
    exact ⟨[], .refl _, rfl, by simp, by simp, by simp, fun _ _ => rfl⟩
  | cons file files ih =>
    obtain ⟨key, h₁, hask, hrest⟩ := bind_ok_iff.mp hr
    obtain ⟨hkey, rfl⟩ := ofExcept_ok_iff.mp hask
    obtain ⟨names, hne, hn, rfl, hdir, hfile⟩ := hfiles file (List.mem_cons_self ..)
    have hothers := fun p hp => hfiles p (List.mem_cons_of_mem _ hp)
    dsimp only at hrest
    split at hrest
    · -- the file has a source and stays
      rename_i hmapped
      obtain ⟨gone, hgone⟩ := ih hd hroot hloc hothers hrest
      exact ⟨gone, hgone.stays (fun _ hf => hf) fun hno => absurd ⟨key, hkey, hmapped⟩ hno⟩
    rename_i hunmapped
    obtain ⟨r, h₁, htolerate, hrest⟩ := bind_ok_iff.mp hrest
    rcases r with err | u
    · -- the file could not be deleted, and nothing has happened to the disk
      obtain ⟨⟨more, failures'⟩, h₂, hmore, hpure⟩ := bind_ok_iff.mp hrest
      obtain ⟨⟨rfl, rfl⟩, rfl⟩ : (more = deleted ∧ ⟨key, err.reason⟩ :: failures' = failures)
          ∧ h₂ = h' := by simpa using hpure
      obtain ⟨f, -, hfail⟩ := tolerate_error htolerate
      have hsame := Store.disk_of_delete_error hfail
      rw [← hsame] at hd hroot hloc hothers ⊢
      obtain ⟨gone, hgone⟩ := ih hd hroot hloc hothers hmore
      exact ⟨gone, hgone.stays (fun _ hf => List.mem_cons_of_mem _ hf) fun _ =>
        ⟨_, List.mem_cons_self .., hkey⟩⟩
    · obtain ⟨⟨more, failures'⟩, h₂, hmore, hpure⟩ := bind_ok_iff.mp hrest
      obtain ⟨⟨rfl, rfl⟩, rfl⟩ : (key :: more = deleted ∧ failures' = failures) ∧ h₂ = h' := by
        simpa using hpure
      obtain ⟨hd₁, hthere, hshape⟩ :=
        delete_listed hs hd hroot hne hn hdir hfile (tolerate_ok htolerate)
      have hpass := passable_of_file_removed hthere hshape
      have hloc₁ := hpass.directory loc hloc
      obtain ⟨time, hfind⟩ := Tree.isDirectory_iff.mp hloc₁
      have hroot₁ := Disk.place_keeps (hs.output.straight hs.root).isAbsolute hroot hpass hfind rfl
      obtain ⟨gone, hgone⟩ := ih hd₁ hroot₁ hloc₁
        (fun p hp => (hothers p hp).removed hpass hshape) hmore
      refine ⟨_, hgone.goes hkey ?_ hshape⟩
      rintro ⟨key', hkey', hmapped⟩
      obtain rfl : key = key' := Except.ok.inj (hkey.symm.trans hkey')
      exact hunmapped hmapped

/-- Where nothing fails, deleting the files without a source takes these away, and nothing else. -/
theorem sweepFiles_ok (hs : l.Sound) (hd : h.disk.Legal) {e : Entry}
    (hroot : h.disk.place true l.outputRoot = .ok (.present loc e))
    (hloc : h.disk.tree.isDirectory loc = true) {files : List Path}
    (hfiles : ∀ p ∈ files, l.Lists h.disk.tree loc p) {deleted : List Text}
    (hr : (sweepFiles l entries files).runOn h = (.ok (deleted, []), h')) (x : Location) :
    (Doomed l entries loc files x → h'.disk.tree.shape x = none)
      ∧ (¬ Doomed l entries loc files x → h'.disk.tree.shape x = h.disk.tree.shape x) := by
  obtain ⟨gone, hgone⟩ := sweepFiles_swept hs hd hroot hloc hfiles hr
  refine ⟨?_, fun hx => hgone.left x fun names hmem heq => hx ?_⟩
  · rintro ⟨names, rfl, hmem, hno⟩
    rcases hgone.covered _ hmem hno with hin | ⟨f, hf, -⟩
    · exact hgone.lost names hin
    · exact absurd hf List.not_mem_nil
  · exact ⟨names, heq, hgone.sublist.subset hmem, hgone.sourceless _ hmem⟩

/-! ## Removing directories -/

/-- What one disk holds the other one holds too, times aside. -/
def Shrinks (d d' : Disk) : Prop := d'.tree.Keeps d.tree

/-- A disk from which directories have been removed, and nothing else. -/
def Prunes (d d' : Disk) : Prop :=
  Shrinks d d' ∧ ∀ x e, d.tree.shape x = some e → e.isDirectory = false → d'.tree.shape x = some e

/-- Removing directories leaves the files. -/
theorem Prunes.isFile {d d' : Disk} (h : Prunes d d') {x : Location}
    (hx : (d.tree.find? x).any Entry.isFile = true) : (d'.tree.find? x).any Entry.isFile = true := by
  obtain ⟨content, hshape⟩ := Tree.isFile_iff_shape.mp hx
  exact Tree.isFile_iff_shape.mpr ⟨content, h.2 x _ hshape rfl⟩

theorem stepwise_shrinks : Stepwise (Across Shrinks) :=
  stepwise_across (fun d => .refl d.tree) fun h h' => h'.trans h

theorem stepwise_prunes : Stepwise (Across Prunes) :=
  stepwise_across (fun d => ⟨.refl d.tree, fun _ _ hx _ => hx⟩) fun h h' =>
    ⟨h'.1.trans h.1, fun x e hx he => h'.2 x e (h.2 x e hx he) he⟩

theorem keeps_remove (t : Tree) (x : Location) (now : Int) : (t.remove x now).Keeps t := by
  intro y e hy
  rcases List.eq_nil_or_concat x with rfl | ⟨dir, n, rfl⟩
  · simpa [Tree.remove, Tree.prune] using hy
  · rw [List.concat_eq_append, Tree.shape_remove] at hy
    split at hy
    · simp at hy
    · exact hy

theorem shrinks_delete (p : Path) : Respects (Across Shrinks) (Store.delete p) := by
  apply respects_bind stepwise_shrinks (respects_meetFault stepwise_shrinks _ _)
  intro _
  apply respects_call stepwise_shrinks
  intro d now d' hc
  obtain ⟨x, e, -, -, rfl⟩ := Disk.unlink_ok hc
  exact keeps_remove d.tree x now

theorem shrinks_removeDirectory (p : Path) :
    Respects (Across Shrinks) (Store.removeDirectory p) := by
  apply respects_bind stepwise_shrinks (respects_meetFault stepwise_shrinks _ _)
  intro _
  apply respects_call stepwise_shrinks
  intro d now d' hc
  obtain ⟨x, time, -, -, -, rfl⟩ := Disk.removeDirectory_ok hc
  exact keeps_remove d.tree x now

theorem prunes_removeDirectory (hp : p.isAbsolute = true) :
    Respects (Across Prunes) (Store.removeDirectory p) := by
  apply respects_bind stepwise_prunes (respects_meetFault stepwise_prunes _ _)
  intro _
  apply respects_call stepwise_prunes
  intro d now d' hc
  obtain ⟨x, time, hpl, hne, hempty, rfl⟩ := Disk.removeDirectory_ok hc
  have hfind := Disk.place_present hp hpl
  refine ⟨keeps_remove d.tree x now, fun y e hy he => ?_⟩
  rcases List.eq_nil_or_concat x with hnil | ⟨dir, n, hcons⟩
  · exact absurd hnil hne
  · rw [List.concat_eq_append] at hcons
    subst hcons
    rw [Disk.tree_withTree, Tree.shape_remove_of_empty hempty, if_neg]
    · exact hy
    · rintro rfl
      rw [Tree.shape_of_find? hfind, Option.some.injEq] at hy
      simp [← hy, Entry.timeless, Entry.setTime, Entry.isDirectory] at he

/-! ## The sweep -/

/-- Removing the empty directories without a failure is a call of the store that has succeeded. -/
theorem pruneDirs_ok {pruned : List Text} (hr : (pruneDirs l).runOn h = (.ok (pruned, []), h')) :
    ∃ dirs, (Store.removeEmptyDirectories l.outputRoot).runOn h = (.ok dirs, h') := by
  obtain ⟨r, h₁, htolerate, hrest⟩ := bind_ok_iff.mp hr
  rcases r with err | dirs
  · obtain ⟨key, h₂, -, hpure⟩ := bind_ok_iff.mp hrest
    simp at hpure
  obtain ⟨keys, h₂, hkeys, hpure⟩ := bind_ok_iff.mp hrest
  obtain rfl : h₂ = h' := (Prod.mk.inj hpure).2
  obtain rfl := keys_ok hkeys
  exact ⟨dirs, tolerate_ok htolerate⟩

/-- The calls that a sweep without failures has made: it has listed the files, deleted those without a
source, and removed the empty directories if it was to. -/
theorem sweep_runs {swept : SweepResult} (hr : (sweep l entries).runOn h = (.ok swept, h'))
    (hclean : swept.failures = []) :
    ∃ files deleted h₁ h₂, (Store.listFiles l.outputRoot).runOn h = (.ok files, h₁)
      ∧ (sweepFiles l entries files).runOn h₁ = (.ok (deleted, []), h₂)
      ∧ ((l.prune = false ∧ h' = h₂)
        ∨ (l.prune = true
          ∧ ∃ dirs, (Store.removeEmptyDirectories l.outputRoot).runOn h₂ = (.ok dirs, h'))) := by
  obtain ⟨r, h₁, htolerate, hrest⟩ := bind_ok_iff.mp hr
  rcases r with err | files
  · obtain ⟨key, h₂, -, hpure⟩ := bind_ok_iff.mp hrest
    obtain ⟨rfl, -⟩ : _ = swept ∧ h₂ = h' := by simpa using hpure
    simp at hclean
  obtain ⟨⟨deleted, failures⟩, h₂, hdelete, hend⟩ := bind_ok_iff.mp hrest
  dsimp only at hend
  split at hend
  · rename_i hyes
    obtain ⟨⟨pruned, more⟩, h₃, hprune, hpure⟩ := bind_ok_iff.mp hend
    obtain ⟨rfl, rfl⟩ : _ = swept ∧ h₃ = h' := by simpa using hpure
    obtain ⟨rfl, rfl⟩ := List.append_eq_nil_iff.mp hclean
    exact ⟨files, deleted, h₁, h₂, tolerate_ok htolerate, hdelete, .inr ⟨hyes, pruneDirs_ok hprune⟩⟩
  · rename_i hno
    obtain ⟨rfl, rfl⟩ : _ = swept ∧ h₂ = h' := by simpa using hend
    obtain rfl : failures = [] := hclean
    exact ⟨files, deleted, h₁, h₂, tolerate_ok htolerate, hdelete, .inl ⟨by simpa using hno, rfl⟩⟩

/-- A sweep without failures lists the files, deletes those without a source, and then removes
directories at most. -/
theorem sweep_steps (hs : l.Sound) (hd : h.disk.Legal) {swept : SweepResult}
    (hr : (sweep l entries).runOn h = (.ok swept, h')) (hclean : swept.failures = []) :
    ∃ files deleted h₁ h₂, h₁.disk = h.disk ∧ (∀ p, p ∈ files ↔ h.disk.HoldsFile l.outputRoot p)
      ∧ (sweepFiles l entries files).runOn h₁ = (.ok (deleted, []), h₂)
      ∧ Prunes h₂.disk h'.disk := by
  have habs := (hs.output.straight hs.root).isAbsolute
  obtain ⟨files, deleted, h₁, h₂, hlist, hdelete, hprune⟩ := sweep_runs hr hclean
  obtain ⟨hsame, hfiles⟩ := Store.listFiles_ok hd habs hlist
  refine ⟨files, deleted, h₁, h₂, hsame, hfiles, hdelete, ?_⟩
  rcases hprune with ⟨-, rfl⟩ | ⟨-, dirs, hprune⟩
  · exact stepwise_prunes.refl h'
  · have hkeep := Store.respects_removeEmptyDirectories stepwise_prunes l.outputRoot
      (fun names => prunes_removeDirectory (p := l.outputRoot.descend names) habs) h₂
    rw [hprune] at hkeep
    exact hkeep

/-- A sweep without failures leaves below the output directory the files that were there and have a
source, and no others, provided that the output directory can still be found. -/
theorem sweep_ok (hs : l.Sound) (hd : h.disk.Legal) {swept : SweepResult}
    (hr : (sweep l entries).runOn h = (.ok swept, h')) (hclean : swept.failures = []) :
    h'.disk.HoldsFile l.outputRoot p ↔ h.disk.HoldsFile l.outputRoot p ∧ l.HasSource entries p
      ∧ h'.disk.Leads l.outputRoot := by
  have habs := (hs.output.straight hs.root).isAbsolute
  have hd' : h'.disk.Legal := (staysLegal_sweep l entries).of_run hr hd
  have hshrinks : h'.disk.tree.Keeps h.disk.tree :=
    (respects_sweep stepwise_shrinks l entries shrinks_delete
      (fun _ => shrinks_removeDirectory _)).of_run hr
  obtain ⟨files, deleted, h₁, h₂, hsame, hfiles, hdelete, hprunes⟩ := sweep_steps hs hd hr hclean
  -- what deleting does, told of the disk that the sweep found
  have hswept : ∀ loc e, h.disk.place true l.outputRoot = .ok (.present loc e) →
      h.disk.tree.isDirectory loc = true → ∀ x,
        (Doomed l entries loc files x → h₂.disk.tree.shape x = none)
          ∧ (¬ Doomed l entries loc files x → h₂.disk.tree.shape x = h.disk.tree.shape x) := by
    intro loc e hroot hloc x
    rw [← hsame] at hd hroot hloc hfiles ⊢
    exact sweepFiles_ok hs hd hroot hloc
      (fun p hp => lists_of_holdsFile hd hroot ((hfiles p).mp hp)) hdelete x
  constructor
  · intro hholds
    have hbefore := hholds.keeps habs hd'.tree hshrinks
    refine ⟨hbefore, ?_, hholds.leads⟩
    obtain ⟨loc, e, names, hroot, hloc, hne, -, rfl, hfile⟩ := hholds.cases hd'.tree
    obtain ⟨e', hroot'⟩ := Disk.place_of_keeps hd'.tree habs hroot hshrinks
    have hloc' := hshrinks.passable.directory loc hloc
    by_cases hsource : l.HasSource entries (l.outputRoot.descend names)
    · exact hsource
    · have hgone := (hswept loc e' hroot' hloc' (loc ++ names)).1
        ⟨names, rfl, (hfiles _).mpr hbefore, hsource⟩
      obtain ⟨content, hshape⟩ := Tree.isFile_iff_shape.mp hfile
      simp [hprunes.1 _ _ hshape] at hgone
  · rintro ⟨hholds, hsource, loc', e', hroot'⟩
    obtain ⟨loc, e, names, hroot, hloc, hne, -, rfl, hfile⟩ := hholds.cases hd.tree
    obtain ⟨e₁, hsameRoot⟩ := Disk.place_of_keeps hd'.tree habs hroot' hshrinks
    obtain ⟨rfl, -⟩ : loc = loc' ∧ e = e₁ := by simpa [hroot] using hsameRoot
    have hspared : ¬ Doomed l entries loc files (loc ++ names) := by
      rintro ⟨names', heq, -, hno⟩
      rw [← List.append_cancel_left heq] at hno
      exact hno hsource
    refine ⟨loc, e', names, hroot', hne, rfl, hprunes.isFile ?_⟩
    rw [Tree.isFile_iff_shape, (hswept loc e hroot hloc _).2 hspared, ← Tree.isFile_iff_shape]
    exact hfile

end Update

end Provenance
