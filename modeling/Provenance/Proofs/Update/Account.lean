/-
What a sweep tells of what it did.

A sweep is to tell what it took away: the files that have disappeared are the deleted ones,
the directories that have disappeared are the pruned ones, and a file without a source that
is still there is among the failures. Files are deleted by one call each, so that whatever
call fails, what is told of the files is right. The empty directories are removed by one
call for all of them. Where that call fails after the first has been removed, those that
are gone are not told of: this is all that can be missing.
-/
import Provenance.Proofs.Update.Tolerance

set_option autoImplicit false

namespace Provenance.Update

open Action Host

variable {l : Layout} {entries : Entries} {h h' h₂ : Host} {d d' d₂ : Disk} {x : Location}
  {kind : Entry → Bool} {keys : List Text}

/-! ## What has disappeared -/

/-- An entry of a kind was at a location, and nothing is there any more. -/
def Lost (kind : Entry → Bool) (d d' : Disk) (x : Location) : Prop :=
  (d.tree.find? x).any kind = true ∧ d'.tree.find? x = none

/-- A location below the output directory, and the key that it is known by. -/
def Layout.KnownBy (l : Layout) (d : Disk) (x : Location) (key : Text) : Prop :=
  ∃ names, names ≠ [] ∧ d.Under l.outputRoot names x
    ∧ (l.outputRoot.descend names).key l.projectRoot = .ok key

/-- Keys tell of what has disappeared: they are those of the entries of a kind that have. -/
structure Layout.TellsOf (l : Layout) (kind : Entry → Bool) (d d' : Disk) (keys : List Text) : Prop where
  complete : ∀ x, Lost kind d d' x → ∃ key ∈ keys, l.KnownBy d x key
  correct : ∀ key ∈ keys, ∃ x, l.KnownBy d x key ∧ Lost kind d d' x

/-- What a sweep tells is what it did. A file without a source that is still there is among the
failures, by its own key or, where the files could not be listed, by that of the output directory. -/
structure Layout.AccountedFor (l : Layout) (entries : Entries) (h : Host) (swept : SweepResult)
    (d' : Disk) : Prop where
  files : l.TellsOf Entry.isFile h.disk d' swept.deleted
  directories : l.TellsOf Entry.isDirectory h.disk d' swept.prunedDirs
  covered : ∀ x key, l.KnownBy h.disk x key → (d'.tree.find? x).any Entry.isFile = true →
    entries.sourcesOf key = [] → ∃ f ∈ swept.failures, f.key = key
      ∨ (l.outputRoot.key l.projectRoot = .ok f.key
        ∧ ∃ e h₁, (Store.listFiles l.outputRoot).runOn h = (.error e, h₁))

/-- Removing the empty directories fails when it must not: some directory lies too deep to be looked
for, or one has been removed already. -/
def LeavesUntold (l : Layout) (entries : Entries) (h : Host) : Prop :=
  l.prune = true ∧ ∃ listed deleted failures h₂ f h₃, Scanned l entries h listed deleted failures h₂
    ∧ (Store.removeEmptyDirectories l.outputRoot).runOn h₂ = (.error f, h₃)
    ∧ (f = ⟨.deepSearch, []⟩ ∨ ∃ x, Lost Entry.isDirectory h₂.disk h₃.disk x)

/-- Nothing is to be told exactly where nothing of a kind has disappeared. -/
theorem tellsOf_nil_iff : l.TellsOf kind d d' [] ↔ ∀ x, ¬ Lost kind d d' x := by
  constructor
  · intro htells x hx
    obtain ⟨key, hin, -⟩ := htells.complete x hx
    exact List.not_mem_nil hin
  · exact fun hnone => ⟨fun x hx => absurd hx (hnone x), by simp⟩

/-- What is to be told depends on what has disappeared and on the keys that it was known by. -/
theorem Layout.TellsOf.congr (htells : l.TellsOf kind d d' keys)
    (hlost : ∀ x, Lost kind d d' x ↔ Lost kind d₂ d' x)
    (hknown : ∀ x key, l.KnownBy d x key ↔ l.KnownBy d₂ x key) : l.TellsOf kind d₂ d' keys := by
  refine ⟨fun x hx => ?_, fun key hin => ?_⟩
  · obtain ⟨key, hin, hk⟩ := htells.complete x ((hlost x).mpr hx)
    exact ⟨key, hin, (hknown x key).mp hk⟩
  · obtain ⟨x, hk, hx⟩ := htells.correct key hin
    exact ⟨x, (hknown x key).mp hk, (hlost x).mp hx⟩

theorem not_lost_same (kind : Entry → Bool) (d : Disk) (x : Location) : ¬ Lost kind d d x := by
  rintro ⟨hthere, hgone⟩
  simp [hgone] at hthere

/-- Keys of what is lost below the output directory tell of it. -/
theorem tellsOf_of_loses {lost : List (List Text)} (hloses : d.Loses l.outputRoot lost d')
    (hlost : ∀ names ∈ lost, names ≠ [] ∧ (d.below? l.outputRoot names).any kind = true)
    (hkeys : keys.map Except.ok = (lost.map l.outputRoot.descend).map (·.key l.projectRoot)) :
    l.TellsOf kind d d' keys := by
  have hmem : ∀ key, key ∈ keys
      ↔ ∃ names ∈ lost, (l.outputRoot.descend names).key l.projectRoot = .ok key := by
    intro key
    rw [← List.mem_map_of_injective (f := (Except.ok : Text → Except Outside Text))
      (fun _ _ => Except.ok.inj), hkeys]
    simp
  constructor
  · rintro x ⟨hthere, hgone⟩
    by_cases hin : ∃ names ∈ lost, d.Under l.outputRoot names x
    · obtain ⟨names, hnames, hunder⟩ := hin
      have hkey : (l.outputRoot.descend names).key l.projectRoot
          ∈ (lost.map l.outputRoot.descend).map (·.key l.projectRoot) :=
        List.mem_map_of_mem (List.mem_map_of_mem hnames)
      rw [← hkeys] at hkey
      obtain ⟨key, hin, heq⟩ := List.mem_map.mp hkey
      exact ⟨key, hin, names, (hlost names hnames).1, hunder, heq.symm⟩
    · -- what is not among the lost is still there
      have hkept := hloses.left x fun names hnames hunder => hin ⟨names, hnames, hunder⟩
      rw [Tree.shape_eq_none_iff.mpr hgone, eq_comm, Tree.shape_eq_none_iff] at hkept
      simp [hkept] at hthere
  · intro key hkey
    obtain ⟨names, hnames, hkey⟩ := (hmem key).mp hkey
    obtain ⟨hne, hthere⟩ := hlost names hnames
    obtain ⟨e, hfind⟩ := Option.isSome_iff_exists.mp (Option.isSome_of_any hthere)
    obtain ⟨loc, e₀, hpl, hfind'⟩ := Disk.below?_eq_some_iff.mp hfind
    have hunder : d.Under l.outputRoot names (loc ++ names) := ⟨loc, e₀, hpl, rfl⟩
    rw [Disk.below?_of_present hpl] at hthere
    exact ⟨loc ++ names, ⟨names, hne, hunder, hkey⟩, hthere,
      Tree.shape_eq_none_iff.mp (hloses.gone names hnames _ hunder)⟩

/-! ## What is told of a run -/

section Run

variable {listed gone : List (List Text)} {deleted : List Text} {failures : List SweepFailure}

/-- Going through the files can end in one way only. -/
theorem Scanned.unique {listed' : List (List Text)} {deleted' : List Text}
    {failures' : List SweepFailure} {h₂' : Host}
    (hscan : Scanned l entries h listed deleted failures h₂)
    (hscan' : Scanned l entries h listed' deleted' failures' h₂') : h₂' = h₂ := by
  obtain ⟨h₁, hlist, hswept⟩ := hscan
  obtain ⟨h₁', hlist', hswept'⟩ := hscan'
  obtain ⟨hfiles, rfl⟩ := Prod.mk.inj (hlist'.symm.trans hlist)
  rw [Except.ok.inj hfiles] at hswept'
  exact (Prod.mk.inj (hswept'.symm.trans hswept)).2

/-- What can be left untold is what is lost when the directories are removed, after the files have been
gone through. -/
theorem Scanned.leavesUntold_iff (hscan : Scanned l entries h listed deleted failures h₂) :
    LeavesUntold l entries h ↔ l.prune = true ∧ ∃ f h₃,
      (Store.removeEmptyDirectories l.outputRoot).runOn h₂ = (.error f, h₃)
        ∧ (f = ⟨.deepSearch, []⟩ ∨ ∃ x, Lost Entry.isDirectory h₂.disk h₃.disk x) := by
  constructor
  · rintro ⟨hprune, _, _, _, _, f, h₃, hscan', hremove, hcase⟩
    obtain rfl := hscan.unique hscan'
    exact ⟨hprune, f, h₃, hremove, hcase⟩
  · rintro ⟨hprune, f, h₃, hremove, hcase⟩
    exact ⟨hprune, listed, deleted, failures, h₂, f, h₃, hscan, hremove, hcase⟩

/-- The deleted files are told of, also after directories have been removed. -/
theorem Purged.tellsOf (hgone : Purged l entries d gone deleted failures d₂)
    (hprunes : Prunes d₂ d') : l.TellsOf Entry.isFile d d' deleted := by
  have htells := tellsOf_of_loses hgone.loses hgone.files hgone.deleted
  -- whatever is lost after the files have been deleted is no file
  have hlost : ∀ x, Lost Entry.isFile d d' x → Lost Entry.isFile d d₂ x := by
    rintro x ⟨hfile, hnone⟩
    refine ⟨hfile, ?_⟩
    rcases hfind : d₂.tree.find? x with _ | e
    · rfl
    · obtain ⟨content, hshape⟩ := Tree.isFile_iff_shape.mp hfile
      have hkept := hgone.loses.keeps x _ (Tree.shape_of_find? hfind)
      have hfile₂ := hprunes.isFile (Tree.isFile_iff_shape.mpr
        ⟨content, by rw [Tree.shape_of_find? hfind, ← hkept, hshape]⟩)
      simp [hnone] at hfile₂
  refine ⟨fun x hx => htells.complete x (hlost x hx), fun key hin => ?_⟩
  obtain ⟨x, hknown, hfile, hnone⟩ := htells.correct key hin
  refine ⟨x, hknown, hfile, ?_⟩
  rcases hfind : d'.tree.find? x with _ | e
  · rfl
  · have hbefore := hprunes.1 x _ (Tree.shape_of_find? hfind)
    rw [Tree.shape_eq_none_iff.mpr hnone] at hbefore
    simp at hbefore

/-- A file without a source that is still there is among the failures. -/
theorem Purged.fails (hgone : Purged l entries d gone deleted failures d₂)
    (hprunes : Prunes d₂ d') {key : Text} (hknown : l.KnownBy d x key)
    (hfile : (d'.tree.find? x).any Entry.isFile = true)
    (hno : entries.sourcesOf key = []) : ∃ f ∈ failures, f.key = key := by
  obtain ⟨names, hne, ⟨loc, e, hpl, rfl⟩, hkey⟩ := hknown
  obtain ⟨content, hshape⟩ := Tree.isFile_iff_shape.mp hfile
  have hshape₂ := hprunes.1 _ _ hshape
  have hbefore : (d.below? l.outputRoot names).any Entry.isFile = true := by
    rw [Disk.below?_of_present hpl]
    exact Tree.isFile_iff_shape.mpr ⟨content, hgone.loses.keeps _ _ hshape₂⟩
  have hsourceless : ¬ l.HasSource entries (l.outputRoot.descend names) := by
    rintro ⟨key', hkey', hmapped⟩
    obtain rfl : key = key' := Except.ok.inj (hkey.symm.trans hkey')
    exact hmapped hno
  rcases hgone.covered names hne hbefore hsourceless with hin | ⟨f, hf, hfkey⟩
  · have hnone := hgone.loses.gone names hin _ ⟨loc, e, hpl, rfl⟩
    simp [hshape₂] at hnone
  · exact ⟨f, hf, Except.ok.inj (hfkey.symm.trans hkey)⟩

/-- A directory that disappears does so after the files have been deleted. -/
theorem Purged.lost_iff (hgone : Purged l entries d gone deleted failures d₂) :
    Lost Entry.isDirectory d d' x ↔ Lost Entry.isDirectory d₂ d' x := by
  have hpass := hgone.loses.passable fun names hin => (hgone.files names hin).2
  constructor
  · rintro ⟨hdir, hnone⟩
    exact ⟨hpass.directory x hdir, hnone⟩
  · rintro ⟨hdir, hnone⟩
    exact ⟨hgone.loses.keeps.passable.directory x hdir, hnone⟩

/-- What is told of the directories is what disappears of them after the files have been deleted. -/
theorem Purged.tellsOf_directories (hgone : Purged l entries d gone deleted failures d₂)
    (ht : d.tree.Legal) (hroot : l.outputRoot.isAbsolute = true) :
    l.TellsOf Entry.isDirectory d d' keys ↔ l.TellsOf Entry.isDirectory d₂ d' keys := by
  have hknown : ∀ x key, l.KnownBy d₂ x key ↔ l.KnownBy d x key := fun x key => by
    simp only [Layout.KnownBy, hgone.loses.under_iff ht hgone.legal.tree hroot hgone.files]
  constructor
  · exact fun htells => htells.congr (fun x => hgone.lost_iff) fun x key => (hknown x key).symm
  · exact fun htells => htells.congr (fun x => hgone.lost_iff.symm) hknown

/-- Once the files have been gone through, all is accounted for if the directories are. -/
theorem Scanned.accountedFor (hscan : Scanned l entries h listed deleted failures h₂)
    (hs : l.Sound) (hd : h.disk.Legal) (hprunes : Prunes h₂.disk d') {pruned : List Text}
    {failures' : List SweepFailure} (hsub : ∀ f ∈ failures, f ∈ failures') :
    l.AccountedFor entries h ⟨deleted, pruned, failures'⟩ d'
      ↔ l.TellsOf Entry.isDirectory h₂.disk d' pruned := by
  obtain ⟨gone, hgone⟩ := hscan.purged hs hd
  have hdirs : l.TellsOf Entry.isDirectory h.disk d' pruned ↔ _ :=
    hgone.tellsOf_directories hd.tree (hs.output.straight hs.root).isAbsolute
  constructor
  · intro haccounted
    exact hdirs.mp haccounted.directories
  · intro htells
    refine ⟨hgone.tellsOf hprunes, hdirs.mpr htells, fun x key hknown hfile hno => ?_⟩
    obtain ⟨f, hf, hkey⟩ := hgone.fails hprunes hknown hfile hno
    exact ⟨f, hsub f hf, .inl hkey⟩

/-- The directories that have been removed are told of. -/
theorem Scanned.tellsOf_pruned (hscan : Scanned l entries h listed deleted failures h₂)
    (hs : l.Sound) (hd : h.disk.Legal) {emptied : List (List Text)}
    (hremove : (Store.removeEmptyDirectories l.outputRoot).runOn h₂
      = (.ok (emptied.map l.outputRoot.descend), h'))
    (hkeys : keys.map Except.ok = (emptied.map l.outputRoot.descend).map (·.key l.projectRoot)) :
    l.TellsOf Entry.isDirectory h₂.disk h'.disk keys := by
  have habs := (hs.output.straight hs.root).isAbsolute
  obtain ⟨gone, hgone⟩ := hscan.purged hs hd
  obtain ⟨h₁, hlist, -⟩ := hscan
  obtain ⟨emptied', hmap, -, hemptied, hloses⟩ := Store.removeEmptyDirectories_hollow habs hgone.legal
    (hgone.short habs (Store.listFiles_short habs hd hlist).2) hremove
  obtain rfl : emptied = emptied' := List.map_injective_iff.mpr
    (fun _ _ heq => by simpa [Path.descend] using heq) hmap
  refine tellsOf_of_loses hloses (fun names hin => ?_) hkeys
  have hhollow := (hemptied names).mp hin
  obtain ⟨e, hfind⟩ := Option.isSome_iff_exists.mp hhollow.there
  have hdir := hhollow.nothingElse [] e (by rwa [List.append_nil])
  exact ⟨hhollow.ne_nil, by rw [hfind, Option.any_some, hdir]⟩

end Run

/-- Whatever calls fail, a sweep returns and has told what it did, if and only if removing the empty
directories does not fail where it must not. -/
theorem sweep_accounts_iff (hs : l.Sound) (hd : h.disk.Legal) (hio : h.OnlyIo) :
    (∃ swept h', (sweep l entries).runOn h = (.ok swept, h')
        ∧ l.AccountedFor entries h swept h'.disk)
      ↔ ¬ LeavesUntold l entries h := by
  have habs := (hs.output.straight hs.root).isAbsolute
  have hprunes : Respects (Across Prunes) (Store.removeEmptyDirectories l.outputRoot) :=
    Store.respects_removeEmptyDirectories stepwise_prunes l.outputRoot fun names =>
      prunes_removeDirectory (p := l.outputRoot.descend names) habs
  -- only where directories have been removed, and that has failed, can something be missing
  have hrun : SweepRun l entries h ((sweep l entries).runOn h) := sweepRun hs hd hio
  generalize hr : (sweep l entries).runOn h = r at hrun ⊢
  cases hrun with
  | @unlisted key e h₁ hlist hkey =>
    refine iff_of_true ⟨_, h₁, rfl, ?_⟩ ?_
    · have hsame : h₁.disk = h.disk :=
        (Store.respects_listFiles (R := fun d d' => d' = d)
          (stepwise_across (fun _ => rfl) fun h h' => h'.trans h) l.outputRoot).of_run hlist
      rw [hsame]
      exact ⟨tellsOf_nil_iff.mpr (not_lost_same _ _), tellsOf_nil_iff.mpr (not_lost_same _ _),
        fun _ _ _ _ _ => ⟨_, List.mem_singleton_self _, .inr ⟨hkey, _, _, hlist⟩⟩⟩
    · rintro ⟨-, _, _, _, _, _, _, ⟨_, hlist', -⟩, -⟩
      simp [hlist] at hlist'
  | @kept listed deleted failures h₂ hscan hprune =>
    rw [hscan.leavesUntold_iff]
    refine iff_of_true ⟨_, h₂, rfl, ?_⟩ (by simp [hprune])
    exact (hscan.accountedFor hs hd (stepwise_prunes.refl h₂) fun _ hf => hf).mpr
      (tellsOf_nil_iff.mpr (not_lost_same _ _))
  | @pruned listed emptied deleted keys failures h₂ h₃ hscan hprune hremove hkeys =>
    rw [hscan.leavesUntold_iff]
    refine iff_of_true ⟨_, h₃, rfl, ?_⟩ (by simp [hremove])
    exact (hscan.accountedFor hs hd (hprunes.of_run hremove) fun _ hf => hf).mpr
      (hscan.tellsOf_pruned hs hd hremove hkeys)
  | @unpruned listed deleted failures key e h₂ h₃ hscan hprune hremove hkey =>
    rw [hscan.leavesUntold_iff]
    -- no directory is told of, which is right if none is lost
    have haccounted : l.AccountedFor entries h ⟨deleted, [], failures ++ [⟨key, e.reason⟩]⟩ h₃.disk
        ↔ ∀ x, ¬ Lost Entry.isDirectory h₂.disk h₃.disk x :=
      (hscan.accountedFor hs hd (hprunes.of_run hremove)
        fun _ hf => List.mem_append_left _ hf).trans tellsOf_nil_iff
    constructor
    · rintro ⟨swept, h', heq, hfor⟩ ⟨-, f, h₄, hremove', hcase⟩
      obtain ⟨rfl, rfl⟩ : _ = swept ∧ h₃ = h' := by simpa using heq
      obtain ⟨rfl, rfl⟩ : _ = f ∧ h₃ = h₄ := by simpa [hremove] using hremove'
      rcases hcase with hdeep | ⟨x, hx⟩
      · simp at hdeep
      · exact haccounted.mp hfor x hx
    · intro hnot
      refine ⟨_, h₃, rfl, haccounted.mpr fun x hx => hnot ?_⟩
      exact ⟨hprune, _, h₃, hremove, .inr ⟨x, hx⟩⟩
  | @tripped listed deleted failures h₂ h₃ hscan hprune hremove =>
    rw [hscan.leavesUntold_iff]
    refine iff_of_false (fun ⟨swept, h', heq, _⟩ => by simp at heq) (not_not.mpr ?_)
    exact ⟨hprune, _, h₃, hremove, .inl rfl⟩

/-- The output directory of `smallOutput`, with a file that cannot be deleted. -/
def stubbornOutput : Host :=
  { smallOutput with faults := [⟨.delete, some "B.class".toList, none, 0, .numbered 13 "denied".toList⟩] }

/-- The host once the files have been gone through. -/
def stubbornScanned : Host :=
  ((sweepFiles smallLayout smallEntries
    ([["A.class".toList], ["b".toList, "B.class".toList]].map smallLayout.outputRoot.descend)).runOn
    ((Store.listFiles smallLayout.outputRoot).runOn stubbornOutput).2).2

/-- The file that cannot be deleted is among the failures. -/
theorem sweep_accounts_small : smallLayout.Sound ∧ stubbornOutput.disk.Legal ∧ stubbornOutput.OnlyIo
    ∧ ∃ h', (sweep smallLayout smallEntries).runOn stubbornOutput
        = (.ok ⟨[], [], [⟨"out/b/B.class".toList, "denied".toList⟩]⟩, h')
      ∧ smallLayout.AccountedFor smallEntries stubbornOutput
        ⟨[], [], [⟨"out/b/B.class".toList, "denied".toList⟩]⟩ h'.disk := by
  have hio : stubbornOutput.OnlyIo := by
    intro r hr
    obtain rfl := List.mem_singleton.mp hr
    rfl
  have hscan : Scanned smallLayout smallEntries stubbornOutput
      [["A.class".toList], ["b".toList, "B.class".toList]] []
      [⟨"out/b/B.class".toList, "denied".toList⟩] stubbornScanned := ⟨_, rfl, rfl⟩
  have htold : ¬ LeavesUntold smallLayout smallEntries stubbornOutput := by
    rw [hscan.leavesUntold_iff]
    rintro ⟨-, f, _, hremove, -⟩
    have hgood : ((Store.removeEmptyDirectories smallLayout.outputRoot).runOn
        stubbornScanned).1.toBool = true := by decide +kernel
    rw [hremove] at hgood
    exact Bool.noConfusion hgood
  obtain ⟨swept, h', hrun, hfor⟩ :=
    (sweep_accounts_iff (h := stubbornOutput) sound_smallLayout legal_smallOutput hio).mpr htold
  have hresult : ((sweep smallLayout smallEntries).runOn stubbornOutput).1
      = .ok ⟨[], [], [⟨"out/b/B.class".toList, "denied".toList⟩]⟩ := by decide +kernel
  obtain rfl := Except.ok.inj ((congrArg Prod.fst hrun).symm.trans hresult)
  exact ⟨sound_smallLayout, legal_smallOutput, hio, h', hrun, hfor⟩

/-- Two empty directories, one in the other, of which the outer one cannot be removed. -/
def nestedOutput : Host :=
  { Session.idle (Session.smallTree
      [(["p".toList, "out".toList], .directory 0),
        (["p".toList, "out".toList, "a".toList], .directory 0),
        (["p".toList, "out".toList, "a".toList, "b".toList], .directory 0)]) with
    faults := [⟨.removeDirectory, some "a".toList, none, 0, .numbered 13 "denied".toList⟩] }

/-- The inner directory has disappeared, and nothing tells of it. -/
theorem not_accounted_midway : smallLayout.Sound ∧ nestedOutput.disk.Legal ∧ nestedOutput.OnlyIo
    ∧ ¬ ∃ swept h', (sweep smallLayout []).runOn nestedOutput = (.ok swept, h')
      ∧ smallLayout.AccountedFor [] nestedOutput swept h'.disk := by
  refine ⟨sound_smallLayout, Session.legal_idle (by decide +kernel) (by decide +kernel), ?_, ?_⟩
  · intro r hr
    obtain rfl := List.mem_singleton.mp hr
    rfl
  rintro ⟨swept, h', hrun, hfor⟩
  have hresult : ((sweep smallLayout []).runOn nestedOutput).1
      = .ok ⟨[], [], [⟨"out".toList, "denied".toList⟩]⟩ := by decide +kernel
  obtain rfl := Except.ok.inj ((congrArg Prod.fst hrun).symm.trans hresult)
  have hgone : Lost Entry.isDirectory nestedOutput.disk
      ((sweep smallLayout []).runOn nestedOutput).2.disk
      ["p".toList, "out".toList, "a".toList, "b".toList] := by
    constructor <;> decide +kernel
  rw [hrun] at hgone
  obtain ⟨key, hin, -⟩ := hfor.directories.complete _ hgone
  exact List.not_mem_nil hin

end Provenance.Update
