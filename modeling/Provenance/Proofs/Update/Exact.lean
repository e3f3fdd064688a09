/-
What a sweep comes to where no call fails.

A sweep makes three kinds of calls on the store: it lists the files, deletes one file after
the other, and removes the empty directories. Where none of them fails, what it takes away
is known from the disk and the entries alone: the regular files without a source, and then,
if directories are to be removed, those that hold nothing but directories any more. Both
are reported, each in ascending order, and everything else stays as it is.

The disk is spoken of by the location that the path of the output directory leads to. A way
to it may go through a directory that is removed, so that afterwards the path need not lead
there any more, but what is at the location is the same.
-/
import Provenance.Proofs.Update.Removal
import Provenance.Proofs.Update.Settled
import Provenance.Proofs.Session.Reachable

set_option autoImplicit false

namespace Provenance.Update

open Action Host

variable {l : Layout} {entries : Entries} {h h' h₁ h₂ : Host} {d d' : Disk} {loc : Location}

/-! ## Calls that do not fail -/

/-- Whether a file below the project root has no source in the entries. -/
def Layout.isOrphan (l : Layout) (entries : Entries) (p : Path) : Bool :=
  match p.key l.projectRoot with
  | .ok key => entries.sourcesOf key = []
  | .error _ => false

/-- No call fails that a sweep makes on the store: it lists the files, it deletes those without a
source, one after the other, and it removes the empty directories if it is to. -/
def Unhindered (l : Layout) (entries : Entries) (h : Host) : Prop :=
  ∃ files h₁ h₂, (Store.listFiles l.outputRoot).runOn h = (.ok files, h₁)
    ∧ ((files.filter (l.isOrphan entries)).forM Store.delete).runOn h₁ = (.ok ⟨⟩, h₂)
    ∧ (l.prune = true →
      ∃ dirs h₃, (Store.removeEmptyDirectories l.outputRoot).runOn h₂ = (.ok dirs, h₃))

/-- What goes on from the output directory has a key. -/
theorem Layout.Sound.key_descend (hs : l.Sound) (names : List Text) :
    ∃ key, (l.outputRoot.descend names).key l.projectRoot = .ok key := by
  obtain ⟨dirs, -, -, heq⟩ := hs.output
  rw [heq, Path.descend_descend, Path.key, Path.relativeTo?_descend]
  exact ⟨_, rfl⟩

/-- Whatever goes on from the output directory is made out to its key. -/
theorem Layout.Sound.keys (hs : l.Sound) (listed : List (List Text)) (h : Host) :
    ∃ keys, (l.keys (listed.map l.outputRoot.descend)).runOn h = (.ok keys, h)
      ∧ keys.map Except.ok
        = (listed.map l.outputRoot.descend).map (·.key l.projectRoot) := by
  induction listed with
  | nil => exact ⟨[], rfl, rfl⟩
  | cons names listed ih =>
    obtain ⟨keys, hkeys, hmap⟩ := ih
    obtain ⟨key, hkey⟩ := hs.key_descend names
    refine ⟨key :: keys, ?_, by rw [List.map_cons, hmap, List.map_cons, List.map_cons, hkey]⟩
    rw [List.map_cons, Layout.keys, runOn_bind_ok (runOn_key hkey h), runOn_bind_ok hkeys]
    rfl

/-- Where the files without a source can be deleted one after the other, that is what a sweep does with
them. -/
theorem sweepFiles_of_deleted (hs : l.Sound) (listed : List (List Text))
    (hr : (((listed.map l.outputRoot.descend).filter (l.isOrphan entries)).forM Store.delete).runOn h
      = (.ok ⟨⟩, h')) :
    ∃ deleted, (sweepFiles l entries (listed.map l.outputRoot.descend)).runOn h
      = (.ok (deleted, []), h') := by
  induction listed generalizing h with
  | nil =>
    obtain rfl : h = h' := (Prod.mk.inj hr).2
    exact ⟨[], rfl⟩
  | cons names listed ih =>
    obtain ⟨key, hkey⟩ := hs.key_descend names
    rw [List.map_cons, sweepFiles, runOn_bind_ok (runOn_key hkey h)]
    dsimp only
    by_cases hmapped : entries.sourcesOf key = []
    · have horphan : l.isOrphan entries (l.outputRoot.descend names) = true := by
        rw [Layout.isOrphan, hkey]
        simpa using hmapped
      rw [List.map_cons, List.filter_cons_of_pos horphan] at hr
      obtain ⟨u, h₁, hdelete, hrest⟩ := bind_ok_iff.mp hr
      obtain ⟨deleted, hrun⟩ := ih hrest
      rw [if_neg (not_not.mpr hmapped), runOn_bind_ok (tolerate_of_ok hdelete)]
      dsimp only
      rw [runOn_bind_ok hrun]
      exact ⟨_, rfl⟩
    · have hkept : ¬ l.isOrphan entries (l.outputRoot.descend names) = true := by
        rw [Layout.isOrphan, hkey]
        simpa using hmapped
      rw [List.map_cons, List.filter_cons_of_neg hkept] at hr
      rw [if_pos hmapped]
      exact ih hr

/-! ## Deleting -/

/-- The files that are gone once the listed ones have been gone through: reported by their keys, all
without a source; of the others without a source each is among the failures. -/
theorem sweepFiles_loses (hs : l.Sound) (hd : h.disk.Legal) {listed : List (List Text)}
    (hlisted : ∀ names ∈ listed,
      names ≠ [] ∧ (h.disk.below? l.outputRoot names).any Entry.isFile = true)
    {deleted : List Text} {failures : List SweepFailure}
    (hr : (sweepFiles l entries (listed.map l.outputRoot.descend)).runOn h
      = (.ok (deleted, failures), h')) :
    ∃ gone : List (List Text), gone.Sublist listed
      ∧ deleted.map Except.ok = (gone.map l.outputRoot.descend).map (·.key l.projectRoot)
      ∧ (∀ names ∈ gone, ¬ l.HasSource entries (l.outputRoot.descend names))
      ∧ (∀ names ∈ listed, ¬ l.HasSource entries (l.outputRoot.descend names) →
        names ∈ gone ∨ ∃ f ∈ failures, (l.outputRoot.descend names).key l.projectRoot = .ok f.key)
      ∧ h.disk.Loses l.outputRoot gone h'.disk := by
  rcases listed with _ | ⟨first, rest⟩
  · obtain ⟨⟨rfl, rfl⟩, rfl⟩ : ([] = deleted ∧ [] = failures) ∧ h = h' := by
      simpa [sweepFiles] using hr
    exact ⟨[], .refl _, rfl, by simp, by simp, by simp, fun _ _ => rfl⟩
  -- a path that a file is below leads to a directory
  obtain ⟨hne, hfirst⟩ := hlisted first (List.mem_cons_self ..)
  obtain ⟨e₁, hfind⟩ := Option.isSome_iff_exists.mp (Option.isSome_of_any hfirst)
  obtain ⟨loc, e, hpl, hthere⟩ := Disk.below?_eq_some_iff.mp hfind
  have hloc := hd.tree.isDirectory_of_below hne (by rw [hthere]; rfl)
  have hlists : ∀ p ∈ (first :: rest).map l.outputRoot.descend, l.Lists h.disk.tree loc p := by
    intro p hp
    obtain ⟨names, hin, rfl⟩ := List.mem_map.mp hp
    obtain ⟨hne', hfile⟩ := hlisted names hin
    rw [Disk.below?_of_present hpl] at hfile
    exact lists_of_holdsFile hd hpl ⟨loc, e, names, hpl, hne', rfl, hfile⟩
  obtain ⟨gone, hgone⟩ := sweepFiles_swept hs hd hpl hloc hlists hr
  obtain ⟨names, hsub, rfl⟩ := List.sublist_map_iff.mp hgone.sublist
  have hmem : ∀ ms, l.outputRoot.descend ms ∈ names.map l.outputRoot.descend ↔ ms ∈ names := by
    intro ms
    rw [List.mem_map]
    constructor
    · rintro ⟨ks, hks, heq⟩
      rwa [← show ks = ms by simpa [Path.descend] using heq]
    · intro hms
      exact ⟨ms, hms, rfl⟩
  refine ⟨names, hsub, hgone.keys, fun ms hms => hgone.sourceless _ ((hmem ms).mpr hms),
    fun ms hms hno => ?_, fun ms hms x hx => ?_, fun x hx => ?_⟩
  · exact (hgone.covered _ (List.mem_map_of_mem hms) hno).imp (hmem ms).mp id
  · obtain ⟨loc', e', hpl', rfl⟩ := hx
    obtain ⟨rfl, -⟩ : loc = loc' ∧ e = e' := by simpa [hpl] using hpl'
    exact hgone.lost ms ((hmem ms).mpr hms)
  · exact hgone.left x fun ms hms heq => hx ms ((hmem ms).mp hms) ⟨loc, e, hpl, heq⟩

/-- The files are listed, and gone through one after the other. -/
def Scanned (l : Layout) (entries : Entries) (h : Host) (listed : List (List Text))
    (deleted : List Text) (failures : List SweepFailure) (h₂ : Host) : Prop :=
  ∃ h₁, (Store.listFiles l.outputRoot).runOn h = (.ok (listed.map l.outputRoot.descend), h₁)
    ∧ (sweepFiles l entries (listed.map l.outputRoot.descend)).runOn h₁
      = (.ok (deleted, failures), h₂)

/-- What is gone once the files have been gone through: regular files without a source, in ascending
order; of the others without a source each is among the failures. -/
structure Purged (l : Layout) (entries : Entries) (d : Disk) (gone : List (List Text))
    (deleted : List Text) (failures : List SweepFailure) (d₂ : Disk) : Prop where
  legal : d₂.Legal
  spares : d.tree.Spares d₂.tree
  files : ∀ names ∈ gone, names ≠ [] ∧ (d.below? l.outputRoot names).any Entry.isFile = true
  inOrder : gone.Pairwise fun a b => compare a b = .lt
  deleted : deleted.map Except.ok = (gone.map l.outputRoot.descend).map (·.key l.projectRoot)
  sourceless : ∀ names ∈ gone, ¬ l.HasSource entries (l.outputRoot.descend names)
  covered : ∀ names, names ≠ [] → (d.below? l.outputRoot names).any Entry.isFile = true →
    ¬ l.HasSource entries (l.outputRoot.descend names) →
    names ∈ gone ∨ ∃ f ∈ failures, (l.outputRoot.descend names).key l.projectRoot = .ok f.key
  loses : d.Loses l.outputRoot gone d₂

theorem Scanned.purged {listed : List (List Text)} {deleted : List Text}
    {failures : List SweepFailure} (hscan : Scanned l entries h listed deleted failures h₂)
    (hs : l.Sound) (hd : h.disk.Legal) :
    ∃ gone, Purged l entries h.disk gone deleted failures h₂.disk := by
  have habs := (hs.output.straight hs.root).isAbsolute
  obtain ⟨h₁, hlist, hswept⟩ := hscan
  obtain ⟨hsame, listed', hmap, horder, hlisted⟩ := Store.listFiles_listed hd habs hlist
  obtain rfl : listed = listed' := List.map_injective_iff.mpr
    (fun _ _ heq => by simpa [Path.descend] using heq) hmap
  have hthin := (respects_sweepFiles stepwise_thins l entries (listed.map l.outputRoot.descend)
    (fun p _ _ _ _ => thins_delete p)).of_run hswept
  rw [← hsame] at hd hlisted ⊢
  obtain ⟨hd₂, hspares⟩ := hthin hd
  obtain ⟨gone, hsub, hdeleted, hsourceless, hcovered, hloses⟩ :=
    sweepFiles_loses hs hd (fun names hin => (hlisted names).mp hin) hswept
  exact ⟨gone, hd₂, hspares, fun names hin => (hlisted names).mp (hsub.subset hin),
    horder.sublist hsub, hdeleted, hsourceless,
    fun names hne hfile => hcovered names ((hlisted names).mpr ⟨hne, hfile⟩), hloses⟩

/-- No path of a directory has become longer. -/
theorem Purged.short {gone : List (List Text)} {deleted : List Text} {failures : List SweepFailure}
    (hgone : Purged l entries d gone deleted failures d')
    (hroot : l.outputRoot.isAbsolute = true)
    (hshort : ∀ loc e names, d.place true l.outputRoot = .ok (.present loc e) → names ≠ [] →
      d.tree.isDirectory (loc ++ names) = true → Disk.isOverlong (l.outputRoot.descend names) = false) :
    ∀ loc e names, d'.place true l.outputRoot = .ok (.present loc e) → names ≠ [] →
      d'.tree.isDirectory (loc ++ names) = true →
      Disk.isOverlong (l.outputRoot.descend names) = false := by
  intro loc e names hpl hne hdir
  obtain ⟨e', hpl'⟩ := Disk.place_of_keeps hgone.legal.tree hroot hpl hgone.loses.keeps
  exact hshort loc e' names hpl' hne (hgone.loses.keeps.passable.directory _ hdir)

/-! ## What is left to be removed -/

section Hollow

variable {root : Path} {gone : List (List Text)} {names : List Text} {e e' : Entry}
  (ht : d.tree.Legal) (ht' : d'.tree.Legal) (hroot : root.isAbsolute = true)
  (hfiles : ∀ names ∈ gone, names ≠ [] ∧ (d.below? root names).any Entry.isFile = true)
  (hloses : d.Loses root gone d')
include ht ht' hroot hfiles hloses

/-- What is left after files have been deleted is of the kind that it was of. -/
theorem below?_left_of_loses (hout : names ∉ gone) (hfind : d.below? root names = some e) :
    ∃ e', d'.below? root names = some e' ∧ e'.isDirectory = e.isDirectory := by
  have hsame := hloses.below? ht ht' hroot hfiles names
  rw [if_neg hout, hfind, Option.map_some] at hsame
  obtain ⟨e', hfind', htimeless⟩ := Option.map_eq_some_iff.mp hsame
  exact ⟨e', hfind', by rw [← Entry.isDirectory_timeless, htimeless, Entry.isDirectory_timeless]⟩

/-- What is there after that was there before, and of the same kind. -/
theorem below?_before_of_loses (hfind' : d'.below? root names = some e') :
    names ∉ gone ∧ ∃ e, d.below? root names = some e ∧ e'.isDirectory = e.isDirectory := by
  have hsame := hloses.below? ht ht' hroot hfiles names
  rw [hfind', Option.map_some] at hsame
  split at hsame
  · simp at hsame
  · rename_i hout
    obtain ⟨e, hfind, htimeless⟩ := Option.map_eq_some_iff.mp hsame.symm
    exact ⟨hout, e, hfind, by rw [← Entry.isDirectory_timeless, ← htimeless, Entry.isDirectory_timeless]⟩

/-- After files have been deleted, what holds nothing but directories is what held nothing else but
such files. -/
theorem hollow_iff_of_loses (names : List Text) :
    d'.Hollow root names ↔ names ≠ [] ∧ (d.below? root names).any Entry.isDirectory = true
      ∧ ∀ more e, d.below? root (names ++ more) = some e →
        e.isDirectory = true ∨ names ++ more ∈ gone := by
  constructor
  · intro hhollow
    have hall : ∀ more e, d.below? root (names ++ more) = some e →
        e.isDirectory = true ∨ names ++ more ∈ gone := by
      intro more e hmore
      by_cases hin : names ++ more ∈ gone
      · exact .inr hin
      · obtain ⟨e', hmore', hsame⟩ := below?_left_of_loses ht ht' hroot hfiles hloses hin hmore
        exact .inl (hsame ▸ hhollow.nothingElse more e' hmore')
    obtain ⟨e', hfind'⟩ := Option.isSome_iff_exists.mp hhollow.there
    obtain ⟨hout, e, hfind, -⟩ := below?_before_of_loses ht ht' hroot hfiles hloses hfind'
    have hself := hall [] e (by rwa [List.append_nil])
    rw [List.append_nil] at hself
    exact ⟨hhollow.ne_nil, by simpa [hfind] using hself.resolve_right hout, hall⟩
  · rintro ⟨hne, hdir, hall⟩
    obtain ⟨e, hfind⟩ := Option.isSome_iff_exists.mp (Option.isSome_of_any hdir)
    have hout : names ∉ gone := by
      intro hin
      have hfile := (hfiles names hin).2
      rw [hfind] at hfile hdir
      cases e <;> simp_all [Entry.isFile, Entry.isDirectory]
    refine ⟨hne, ?_, fun more e' hmore' => ?_⟩
    · obtain ⟨e', hfind', -⟩ := below?_left_of_loses ht ht' hroot hfiles hloses hout hfind
      rw [hfind']
      rfl
    · obtain ⟨hout', e, hmore, hsame⟩ := below?_before_of_loses ht ht' hroot hfiles hloses hmore'
      rw [hsame]
      exact (hall more e hmore).resolve_right hout'

end Hollow

/-! ## The sweep -/

/-- What a sweep comes to that nothing keeps from its work. On from where the output directory's path
leads to, `gone` are the regular files without a source and `emptied` the directories that hold
nothing but directories once these are gone. Both are reported in ascending order, and they are what
the disk has lost; all else is as it was, times of directories aside. -/
structure Layout.Cleared (l : Layout) (entries : Entries) (d : Disk) (gone emptied : List (List Text))
    (swept : SweepResult) (d' : Disk) : Prop where
  files : ∀ names, names ∈ gone
    ↔ names ≠ [] ∧ (d.below? l.outputRoot names).any Entry.isFile = true
      ∧ ¬ l.HasSource entries (l.outputRoot.descend names)
  filesInOrder : gone.Pairwise fun a b => compare a b = .lt
  deleted : swept.deleted.map Except.ok
    = (gone.map l.outputRoot.descend).map (·.key l.projectRoot)
  directories : ∀ names, names ∈ emptied
    ↔ l.prune = true ∧ names ≠ [] ∧ (d.below? l.outputRoot names).any Entry.isDirectory = true
      ∧ ∀ more e, d.below? l.outputRoot (names ++ more) = some e →
        e.isDirectory = true ∨ names ++ more ∈ gone
  directoriesInOrder : emptied.Pairwise fun a b => compare a b = .lt
  prunedDirs : swept.prunedDirs.map Except.ok
    = (emptied.map l.outputRoot.descend).map (·.key l.projectRoot)
  failures : swept.failures = []
  root : ∀ loc e, d.place true l.outputRoot = .ok (.present loc e) →
    (d'.tree.find? loc).map Entry.undated = some e.undated
  lost : ∀ names ∈ gone ++ emptied, ∀ x, d.Under l.outputRoot names x → d'.tree.find? x = none
  left : ∀ x, (∀ names ∈ gone ++ emptied, ¬ d.Under l.outputRoot names x) →
    (d'.tree.find? x).map Entry.undated = (d.tree.find? x).map Entry.undated

/-- Losing files and then, of what is left, hollow directories is what a sweep is to come to. -/
theorem cleared_of_loses {d₂ : Disk} {gone emptied : List (List Text)} {swept : SweepResult}
    (hroot : l.outputRoot.isAbsolute = true) (ht : d.tree.Legal) (ht₂ : d₂.tree.Legal)
    (hfiles : ∀ names, names ∈ gone
      ↔ names ≠ [] ∧ (d.below? l.outputRoot names).any Entry.isFile = true
        ∧ ¬ l.HasSource entries (l.outputRoot.descend names))
    (horder : gone.Pairwise fun a b => compare a b = .lt)
    (hdeleted : swept.deleted.map Except.ok
      = (gone.map l.outputRoot.descend).map (·.key l.projectRoot))
    (hloses : d.Loses l.outputRoot gone d₂)
    (hdirs : ∀ names, names ∈ emptied ↔ l.prune = true ∧ d₂.Hollow l.outputRoot names)
    (horder' : emptied.Pairwise fun a b => compare a b = .lt)
    (hpruned : swept.prunedDirs.map Except.ok
      = (emptied.map l.outputRoot.descend).map (·.key l.projectRoot))
    (hloses' : d₂.Loses l.outputRoot emptied d') (hclean : swept.failures = [])
    (hspares : d.tree.Spares d'.tree) : l.Cleared entries d gone emptied swept d' := by
  have hgone : ∀ names ∈ gone,
      names ≠ [] ∧ (d.below? l.outputRoot names).any Entry.isFile = true := fun names hin =>
    let ⟨hne, hfile, _⟩ := (hfiles names).mp hin
    ⟨hne, hfile⟩
  have hhollow := hollow_iff_of_loses ht ht₂ hroot hgone hloses
  have hunder : ∀ names x, d₂.Under l.outputRoot names x ↔ d.Under l.outputRoot names x :=
    fun names x => hloses.under_iff ht ht₂ hroot hgone
  have hleft : ∀ x, (∀ names ∈ gone ++ emptied, ¬ d.Under l.outputRoot names x) →
      (d'.tree.find? x).map Entry.undated = (d.tree.find? x).map Entry.undated := by
    intro x hx
    have hshape : d'.tree.shape x = d.tree.shape x := by
      rw [hloses'.left x fun names hin hthere =>
          hx names (List.mem_append_right _ hin) ((hunder names x).mp hthere),
        hloses.left x fun names hin => hx names (List.mem_append_left _ hin)]
    by_cases hsome : (d'.tree.find? x).isSome
    · exact hspares.eq_of_isSome hsome
    · rw [Option.not_isSome_iff_eq_none] at hsome
      rw [Tree.shape_eq_none_iff.mpr hsome, eq_comm, Tree.shape_eq_none_iff] at hshape
      rw [hsome, hshape]
  refine ⟨hfiles, horder, hdeleted, fun names => by rw [hdirs, hhollow], horder', hpruned, hclean,
    fun loc e hpl => ?_, fun names hin x hthere => ?_, hleft⟩
  · rw [hleft loc, Disk.place_present hroot hpl, Option.map_some]
    rintro names hin ⟨loc', e', hpl', heq⟩
    obtain ⟨rfl, -⟩ : loc = loc' ∧ e = e' := by simpa [hpl] using hpl'
    have hnil : names = [] := List.self_eq_append_right.mp heq
    rcases List.mem_append.mp hin with hin | hin
    · exact (hgone names hin).1 hnil
    · exact ((hdirs names).mp hin).2.ne_nil hnil
  · rw [← Tree.shape_eq_none_iff]
    rcases List.mem_append.mp hin with hin | hin
    · -- what is gone is not made again
      rcases hshape : d'.tree.shape x with _ | e
      · rfl
      · have hbefore := hloses'.keeps x e hshape
        rw [hloses.gone names hin x hthere] at hbefore
        simp at hbefore
    · exact hloses'.gone names hin x ((hunder names x).mpr hthere)

/-- Where no call fails, a sweep returns, and has removed and reported exactly the regular files below
the output directory that have no source and, if it is to, the directories that then hold nothing but
directories. -/
theorem sweep_exact (hs : l.Sound) (hd : h.disk.Legal) (hcalls : Unhindered l entries h) :
    ∃ swept h' gone emptied, (sweep l entries).runOn h = (.ok swept, h')
      ∧ l.Cleared entries h.disk gone emptied swept h'.disk := by
  have habs := (hs.output.straight hs.root).isAbsolute
  obtain ⟨files, h₁, h₂, hlist, hdelete, hprune⟩ := hcalls
  obtain ⟨-, listed, rfl, -⟩ := Store.listFiles_listed hd habs hlist
  obtain ⟨deleted, hswept⟩ := sweepFiles_of_deleted hs listed hdelete
  have hscan : Scanned l entries h listed deleted [] h₂ := ⟨h₁, hlist, hswept⟩
  obtain ⟨gone, hgone⟩ := hscan.purged hs hd
  -- since no call has failed, what could be among the failures is gone
  have hfiles : ∀ names, names ∈ gone
      ↔ names ≠ [] ∧ (h.disk.below? l.outputRoot names).any Entry.isFile = true
        ∧ ¬ l.HasSource entries (l.outputRoot.descend names) := by
    intro names
    constructor
    · intro hin
      obtain ⟨hne, hfile⟩ := hgone.files names hin
      exact ⟨hne, hfile, hgone.sourceless names hin⟩
    · rintro ⟨hne, hfile, hno⟩
      exact (hgone.covered names hne hfile hno).resolve_right fun ⟨f, hf, _⟩ => List.not_mem_nil hf
  by_cases hyes : l.prune = true
  · obtain ⟨dirs, h₃, hremove⟩ := hprune hyes
    have hshort : ∀ loc e names, h₂.disk.place true l.outputRoot = .ok (.present loc e) → names ≠ [] →
        h₂.disk.tree.isDirectory (loc ++ names) = true →
        Disk.isOverlong (l.outputRoot.descend names) = false :=
      hgone.short habs (Store.listFiles_short habs hd hlist).2
    obtain ⟨emptied, rfl, horder, hemptied, hloses⟩ :=
      Store.removeEmptyDirectories_hollow habs hgone.legal hshort hremove
    have hthin := (Store.respects_removeEmptyDirectories stepwise_thins l.outputRoot
      (fun names => thins_removeDirectory (p := l.outputRoot.descend names) habs)).of_run hremove
    obtain ⟨keys, hkeys, hpruned⟩ := hs.keys emptied h₃
    have hrun := sweep_of_pruned hlist hswept hyes (pruneDirs_of_ok hremove hkeys)
    exact ⟨_, h₃, gone, emptied, hrun, cleared_of_loses habs hd.tree hgone.legal.tree hfiles
      hgone.inOrder hgone.deleted hgone.loses (fun names => by rw [hemptied]; simp [hyes]) horder
      hpruned hloses rfl (hgone.spares.trans (hthin hgone.legal).2)⟩
  · have hrun := sweep_of_kept hlist hswept hyes
    exact ⟨_, h₂, gone, [], hrun, cleared_of_loses habs hd.tree hgone.legal.tree hfiles hgone.inOrder
      hgone.deleted hgone.loses (fun names => by simp [hyes]) .nil rfl ⟨by simp, fun _ _ => rfl⟩ rfl
      hgone.spares⟩

/-- A project with an output directory. -/
def smallLayout : Layout := ⟨Session.smallRoot, Session.smallRoot.child "out".toList, true⟩

theorem sound_smallLayout : smallLayout.Sound :=
  ⟨⟨rfl, by decide⟩, ["out".toList], by decide, by decide, rfl⟩

/-- One artifact that has a source. -/
def smallEntries : Entries := [("out/A.class".toList, [Session.smallSource])]

/-- An output directory with that artifact, a file without a source and a directory with a link. -/
def smallOutput : Host :=
  Session.idle (Session.smallTree
    [(["p".toList, "out".toList], .directory 0),
      (["p".toList, "out".toList, "A.class".toList], .file [] 0),
      (["p".toList, "out".toList, "b".toList], .directory 0),
      (["p".toList, "out".toList, "b".toList, "B.class".toList], .file [] 0),
      (["p".toList, "out".toList, "c".toList], .directory 0),
      (["p".toList, "out".toList, "c".toList, "d".toList], .link ⟨.here, ["e".toList]⟩)])

theorem legal_smallOutput : smallOutput.disk.Legal :=
  Session.legal_idle (by decide +kernel) (by decide +kernel)

/-- The file without a source is deleted, and the directory that it was in is removed. -/
theorem sweep_exact_small : Unhindered smallLayout smallEntries smallOutput
    ∧ ∃ h' gone emptied, (sweep smallLayout smallEntries).runOn smallOutput
        = (.ok ⟨["out/b/B.class".toList], ["out/b".toList], []⟩, h')
      ∧ smallLayout.Cleared smallEntries smallOutput.disk gone emptied
        ⟨["out/b/B.class".toList], ["out/b".toList], []⟩ h'.disk := by
  have hcalls : Unhindered smallLayout smallEntries smallOutput :=
    ⟨_, _, _, rfl, rfl, fun _ => ⟨_, _, rfl⟩⟩
  obtain ⟨swept, h', gone, emptied, hrun, hcleared⟩ :=
    sweep_exact sound_smallLayout legal_smallOutput hcalls
  have hresult : ((sweep smallLayout smallEntries).runOn smallOutput).1
      = .ok ⟨["out/b/B.class".toList], ["out/b".toList], []⟩ := by decide +kernel
  obtain rfl := Except.ok.inj ((congrArg Prod.fst hrun).symm.trans hresult)
  exact ⟨hcalls, h', gone, emptied, hrun, hcleared⟩

end Provenance.Update
