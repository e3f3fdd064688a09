/-
What an update has noted of what it has made.

An update notes each directory and each file that it makes, so that it can take
them away again. The notes agree with the tree after every step that succeeds and
after every step that fails, except for one that leaves directories half made: these
are in the tree and in no note. Both updates go through their artifacts one by one, so
that what holds of one artifact holds of a whole update, up to the artifact that it
fails at.
-/
import Provenance.Proofs.Update.Cycle
import Provenance.Proofs.Update.Making

set_option autoImplicit false

namespace Provenance.Update

open Action Host Cycle

variable {l : Layout} {before : Tree} {c : Cycle} {extras dirs files : List Made}

/-! ## Notes -/

/-- The notes of an update tell of the directories and the files made, and not of the extras. -/
structure Books (l : Layout) (before : Tree) (c : Cycle) (extras dirs files : List Made) : Prop where
  stock : Stock before c.host.disk.tree (extras ++ dirs) files
  createdDirs : c.pending.createdDirs.reverse = dirs.map Made.path
  created : c.pending.created.reverse = files.map fun m => (m.name, m.path)
  artifacts : ∀ m ∈ files, m.path.Below l.outputRoot ∧ m.path.key l.projectRoot = .ok m.name

/-- The notes of an update tell of all that was made. -/
def Complete (l : Layout) (before : Tree) (c : Cycle) : Prop :=
  ∃ dirs files, Books l before c [] dirs files

/-- The notes of an update leave out something that was made. -/
def Lacking (l : Layout) (before : Tree) (c : Cycle) : Prop :=
  ∃ extras dirs files, extras ≠ [] ∧ Books l before c extras dirs files

/-- What the notes depend on. -/
theorem Complete.of_eq {c' : Cycle} (h : Complete l before c) (hhost : c'.host = c.host)
    (hdirs : c'.pending.createdDirs = c.pending.createdDirs)
    (hfiles : c'.pending.created = c.pending.created) : Complete l before c' := by
  obtain ⟨dirs, files, hb⟩ := h
  exact ⟨dirs, files, by rw [hhost]; exact hb.stock, by rw [hdirs]; exact hb.createdDirs,
    by rw [hfiles]; exact hb.created, hb.artifacts⟩

theorem Books.host (hb : Books l before c [] dirs files) {h : Host} (extras : List Made)
    (hst : Stock before h.disk.tree (extras ++ dirs) files) :
    Books l before { c with host := h } extras dirs files :=
  ⟨hst, hb.createdDirs, hb.created, hb.artifacts⟩

/-! ## One artifact -/

section

variable (hl : l.Sound) {a : ArtifactFile}
include hl

/-- No artifact that is noted has the key of one whose path nothing was made under. -/
theorem Books.filter_created {extras : List Made} (hb : Books l before c extras dirs files)
    (ha : a.location.Below l.outputRoot) (hkey : a.location.key l.projectRoot = .ok a.key)
    (hnew : ∀ m ∈ files, m.path ≠ a.location) :
    c.pending.created.filter (fun kp => decide (kp.1 ≠ a.key)) = c.pending.created := by
  apply List.filter_eq_self.mpr
  intro kp hkp
  have hmem := List.mem_reverse.mpr hkp
  rw [hb.created] at hmem
  obtain ⟨m, hm, rfl⟩ := List.mem_map.mp hmem
  obtain ⟨hbelow, hmkey⟩ := hb.artifacts m hm
  -- two locations below the output directory with one key are one
  refine decide_eq_true fun heq => hnew m hm ?_
  apply (hbelow.trans hl.output).eq_of_key (ha.trans hl.output)
  rw [hmkey, hkey]
  exact congrArg Except.ok heq

/-- The file of an artifact is made and noted, or nothing is. -/
theorem ends_makeFile (hb : Books l before c [] dirs files) (ha : a.location.Below l.outputRoot)
    (hkey : a.location.key l.projectRoot = .ok a.key) :
    Ends ((do
        let created ← onHost (Store.createIfAbsent a.location)
        if created then
          note fun p =>
            { p with created := p.created.filter (·.1 ≠ a.key) ++ [(a.key, a.location)] }
        return created : Action Cycle Bool).runOn c)
      (fun _ => Complete l before) (fun _ => Complete l before) := by
  have hfile := ends_createIfAbsent hb.stock (hl.straight ha) a.key
  rw [runOn_bind, runOn_onHost]
  rcases hrun : (Store.createIfAbsent a.location).runOn c.host with ⟨f | created, h'⟩
  · rw [hrun] at hfile
    exact ⟨_, _, hb.host [] hfile⟩
  rw [hrun] at hfile
  rcases hfile with ⟨rfl, hst⟩ | ⟨rfl, hnew, loc, hst⟩
  · exact ⟨_, _, hb.host [] hst⟩
  · refine ⟨dirs, ⟨a.key, a.location, loc, false⟩ :: files, hst, hb.createdDirs, ?_, ?_⟩
    · show (c.pending.created.filter _ ++ [(a.key, a.location)]).reverse = _
      rw [hb.filter_created hl ha hkey hnew, List.reverse_append, hb.created]
      rfl
    · intro m hm
      rcases List.mem_cons.mp hm with rfl | hm
      · exact ⟨ha, hkey⟩
      · exact hb.artifacts m hm

/-- Of the directories and the file of an artifact all is noted, or the directories are half made. -/
theorem forks_materialize (hc : Complete l before c) (ha : a.location.Below l.outputRoot)
    (hkey : a.location.key l.projectRoot = .ok a.key) :
    Forks ((materialize a).runOn c) (HalfMade c.host a.location.parent)
      (fun _ => Complete l before) (Complete l before) (Lacking l before) := by
  obtain ⟨dirs, files, hb⟩ := hc
  have hmake := forks_createDirectories hb.stock (hl.straight ha).parent
  refine forks_bind (M := fun made c' => ∃ new, Stock before c'.host.disk.tree (new ++ dirs) files
    ∧ made.reverse = new.map Made.path ∧ c'.pending = c.pending) ⟨fun hhalf => ?_, fun hno => ?_⟩ ?_
  · -- what was half made is noted nowhere
    obtain ⟨f, h', hrun, new, hne, hst⟩ := hmake.snagged hhalf
    exact ⟨f, { c with host := h' }, by rw [runOn_onHost, hrun], new, dirs, files, hne, hb.host new hst⟩
  · have hends := hmake.clear hno
    rw [runOn_onHost]
    rcases hrun : (Store.createDirectories a.location.parent).runOn c.host with ⟨f | made, h'⟩
    · rw [hrun] at hends
      exact ⟨dirs, files, hb.host [] hends⟩
    · rw [hrun] at hends
      obtain ⟨new, hst, hpaths⟩ := hends
      exact ⟨new, hst, hpaths, rfl⟩
  rintro made c' ⟨new, hst, hpaths, hpending⟩
  -- the directories are noted before the file is made
  have hb' : Books l before { c' with pending :=
      { c'.pending with createdDirs := c'.pending.createdDirs ++ made } } [] (new ++ dirs) files := by
    refine ⟨hst, ?_, ?_, hb.artifacts⟩
    · simp [hpending, hpaths, hb.createdDirs]
    · simp [hpending, hb.created]
  rw [runOn_bind, runOn_note]
  exact ends_makeFile hl hb' ha hkey

omit hl in
theorem ends_touchArtifact (hc : Complete l before c) :
    Ends ((Cycle.touch a).runOn c) (fun _ => Complete l before) (fun _ => Complete l before) := by
  obtain ⟨dirs, files, hb⟩ := hc
  have htouch := ends_touch a.location hb.stock
  unfold Cycle.touch
  rw [runOn_bind, runOn_onHost]
  rcases hrun : (Store.touch a.location).runOn c.host with ⟨f | u, h'⟩
  · rw [hrun] at htouch
    exact ⟨dirs, files, hb.host [] htouch⟩
  · rw [hrun] at htouch
    have hb' := hb.host [] htouch
    exact ⟨dirs, files, hb'.stock, hb'.createdDirs, hb'.created, hb'.artifacts⟩

omit hl in
/-- Looking at the sources makes nothing. -/
theorem ends_onSources {α : Type} (hc : Complete l before c) (act : Disk → Action SourceSet α) :
    Ends ((onSources act).runOn c) (fun _ => Complete l before) (fun _ => Complete l before) := by
  have hsame : Complete l before ((onSources act).runOn c).2 := hc.of_eq rfl rfl rfl
  rcases hr : (onSources act).runOn c with ⟨e | a, c'⟩
  · rw [hr] at hsame
    exact hsame
  · rw [hr] at hsame
    exact hsame

/-! ## Rebuilds -/

/-- The directories of an output are half made when the update comes to it. -/
def OutputSnags (l : Layout) (o : Output) (c : Cycle) : Prop :=
  ∃ p, Artifact.locate l.outputRoot o.path = .ok p ∧ HalfMade c.host p.parent

theorem forks_rebuildOutput (hc : Complete l before c) (ledger : Ledger) (affected : List Text)
    (o : Output) :
    Forks ((rebuildOutput l ledger affected o).runOn c) (OutputSnags l o c)
      (fun _ => Complete l before) (Complete l before) (Lacking l before) := by
  unfold rebuildOutput
  rcases hp : Artifact.locate l.outputRoot o.path with e | p
  · refine forks_of_ends hc ?_
    rintro ⟨p, hp', -⟩
    simp [hp] at hp'
  have hbelow := Artifact.locate_below hp
  obtain ⟨a, ha⟩ := hl.artifact hbelow
  obtain ⟨hloc, hkey⟩ := Layout.artifact_ok ha
  rw [runOn_bind_ok (runOn_ofExcept_ok _ p c), ha, runOn_bind_ok (runOn_ofExcept_ok _ a c)]
  have hmat := forks_materialize hl hc (a := a) (by rw [hloc]; exact hbelow) (by rw [hloc]; exact hkey)
  refine (forks_bind hmat fun created c₁ h₁ => ?_).congr ?_
  · refine ends_get_bind (ends_ofExcept_bind (fun _ _ => h₁) fun b _ => ?_)
    cases b with
    | false => exact h₁.of_eq rfl rfl rfl
    | true => exact ends_bind (ends_touchArtifact h₁) fun _ c₂ h₂ => h₂.of_eq rfl rfl rfl
  · constructor
    · rintro ⟨q, hq, hhalf⟩
      obtain rfl : p = q := Except.ok.inj (hp.symm.trans hq)
      rw [hloc]
      exact hhalf
    · rw [hloc]
      exact fun hhalf => ⟨p, hp, hhalf⟩

/-- All that a rebuild makes is noted, unless it comes to an output whose directories are half
made. -/
theorem forks_rebuildSteps (hc : Complete l before c) (ledger : Ledger) (affected : List Text)
    (build : Build) :
    Forks ((rebuildSteps l ledger affected build).runOn c)
      (∃ o c₁, ComesTo (rebuildOutput l ledger affected) build c o c₁ ∧ OutputSnags l o c₁)
      (fun _ => Complete l before) (Complete l before) (Lacking l before) :=
  forks_forM _ hc fun o _ _ hc' => forks_rebuildOutput hl hc' ledger affected o

/-! ## Edits -/

theorem forks_editArtifact (hc : Complete l before c) (f : TrackedFile) {p : Path}
    (hp : p.Below l.outputRoot) :
    Forks ((editArtifact l f p).runOn c) (HalfMade c.host p.parent)
      (fun _ => Complete l before) (Complete l before) (Lacking l before) := by
  obtain ⟨a, ha⟩ := hl.artifact hp
  obtain ⟨rfl, hkey⟩ := Layout.artifact_ok ha
  rw [editArtifact, ha, runOn_bind_ok (runOn_ofExcept_ok _ a c)]
  apply forks_bind (forks_materialize hl hc hp hkey)
  intro created c₁ h₁
  cases created with
  | true => exact h₁.of_eq rfl rfl rfl
  | false => exact ends_bind (ends_touchArtifact h₁) fun _ c₂ h₂ => h₂.of_eq rfl rfl rfl

/-- The directories of an artifact of a file are half made when the update comes to the artifact. -/
def FileSnags (l : Layout) (resolve : Resolver) (f : TrackedFile) (c : Cycle) : Prop :=
  ∃ ps c₁ p c₂, (artifactLocations l resolve f).runOn c = (.ok ps, c₁)
    ∧ ComesTo (editArtifact l f) ps c₁ p c₂ ∧ HalfMade c₂.host p.parent

omit hl in
/-- Finding the artifacts of a file makes nothing. -/
theorem ends_artifactLocations (hc : Complete l before c) (resolve : Resolver) (f : TrackedFile) :
    Ends ((artifactLocations l resolve f).runOn c) (fun _ => Complete l before)
      (fun _ => Complete l before) := by
  refine ends_bind (M := fun _ => Complete l before) ?_ fun unit c₁ h₁ => ?_
  · exact ends_onSources hc _
  · cases unit with
    | none => exact h₁
    | some unit => exact ends_ofExcept (fun _ _ => h₁) fun _ _ => h₁

theorem forks_editSource (hc : Complete l before c) (resolve : Resolver) (f : TrackedFile) :
    Forks ((editSource l resolve f).runOn c) (FileSnags l resolve f c)
      (fun _ => Complete l before) (Complete l before) (Lacking l before) := by
  have hfind := ends_artifactLocations hc resolve f
  unfold editSource
  rcases hps : (artifactLocations l resolve f).runOn c with ⟨e | ps, c₁⟩
  · rw [hps] at hfind
    rw [runOn_bind_error hps]
    refine forks_of_ends hfind ?_
    rintro ⟨ps, c₁, p, c₂, hps', -⟩
    simp [hps] at hps'
  rw [hps] at hfind
  rw [runOn_bind_ok hps]
  refine (forks_forM (I := Complete l before)
    (fun (p : Path) (c : Cycle) => HalfMade c.host p.parent) hfind fun p hp c₂ hc₂ =>
    forks_editArtifact hl hc₂ f (artifactLocations_below hps p hp)).congr ⟨?_, ?_⟩
  · rintro ⟨ps', c₁', p, c₂, hps', hsnag⟩
    obtain ⟨rfl, rfl⟩ : ps = ps' ∧ c₁ = c₁' := by simpa [hps] using hps'
    exact ⟨p, c₂, hsnag⟩
  · rintro ⟨p, c₂, hsnag⟩
    exact ⟨ps, c₁, p, c₂, hps, hsnag⟩

/-- All that an edit makes is noted, unless it comes to an artifact whose directories are half
made. -/
theorem forks_editSteps (hc : Complete l before c) (resolve : Resolver) (affected : List Text) :
    Forks ((editSteps l resolve affected).runOn c)
      (∃ files c₁ f c₂, (onSources SourceSet.listed).runOn c = (.ok files, c₁)
        ∧ ComesTo (editSource l resolve) (files.filter fun f => affected.contains f.path) c₁ f c₂
        ∧ FileSnags l resolve f c₂)
      (fun _ => Complete l before) (Complete l before) (Lacking l before) := by
  have hsame := ends_onSources hc SourceSet.listed
  unfold editSteps
  rcases hfiles : (onSources SourceSet.listed).runOn c with ⟨e | files, c₁⟩
  · rw [hfiles] at hsame
    rw [runOn_bind_error hfiles]
    refine forks_of_ends hsame ?_
    rintro ⟨files, c₁, f, c₂, hfiles', -⟩
    simp at hfiles'
  rw [hfiles] at hsame
  rw [runOn_bind_ok hfiles]
  refine (forks_forM (I := Complete l before) (FileSnags l resolve) hsame fun f _ c₂ hc₂ =>
    forks_editSource hl hc₂ resolve f).congr ⟨?_, ?_⟩
  · rintro ⟨files', c₁', f, c₂, hfiles', hsnag⟩
    obtain ⟨rfl, rfl⟩ : files = files' ∧ c₁ = c₁' := by simpa [hfiles] using hfiles'
    exact ⟨f, c₂, hsnag⟩
  · rintro ⟨f, c₂, hsnag⟩
    exact ⟨files, c₁, f, c₂, rfl, hsnag⟩

end

end Provenance.Update
