/-
Updates side by side.

Two updates in progress run on two hosts and on two sets of sources. A kinship says what
these have in common, and what is noted is the same on both sides. If the calls of the store
keep the kinship, and the sources are asked with the same answers, the steps of two updates
go in lockstep, and so does their taking back.

The steps of an edit read files, and a kinship need not let all files be read: they have to
be readable when the edit comes to them.
-/
import Provenance.Proofs.Mirror
import Provenance.Proofs.SourceSet
import Provenance.Proofs.Update.Cycle

set_option autoImplicit false

namespace Provenance.Update

open Action Cycle Host

/-! ## Kinship -/

/-- What hosts and sets of sources have in common, and which files both sides read in the same way. -/
structure Kinship where
  hosts : Host → Host → Prop
  sources : SourceSet → SourceSet → Prop
  readable : Disk → TrackedFile → Prop

/-- The calls that an update makes keep the kinship, with the same results on both sides. -/
structure Kinship.Lawful (K : Kinship) : Prop where
  mirroring : Mirroring K.hosts
  touch : ∀ {p : Path}, p.isAbsolute = true → Lockstep K.hosts Eq (Store.touch p) (Store.touch p)
  rules : ∀ {t t'}, K.sources t t' → SourceSet.SameRules t t'
  listed : ∀ {h h'}, K.hosts h h' →
    Lockstep K.sources Eq (SourceSet.listed h.disk) (SourceSet.listed h'.disk)
  unitOf : ∀ {h h' f}, K.hosts h h' → K.readable h.disk f →
    Lockstep K.sources Eq (SourceSet.unitOf h.disk f) (SourceSet.unitOf h'.disk f)

/-- Two updates that have noted the same, and have created it at absolute paths. -/
structure Kinship.Cycles (K : Kinship) (c c' : Cycle) : Prop where
  hosts : K.hosts c.host c'.host
  sources : K.sources c.sources c'.sources
  pending : c'.pending = c.pending
  created : ∀ kp ∈ c.pending.created, kp.2.isAbsolute = true
  createdDirs : ∀ dir ∈ c.pending.createdDirs, dir.isAbsolute = true

variable {K : Kinship} {α β : Type} {P : α → β → Prop} {l : Layout} {a : ArtifactFile} {f : TrackedFile}
  {resolve : Resolver} {c c' : Cycle} {p : Path} {affected : List Text}

/-- Updates that have not done anything. -/
theorem Kinship.cycles_none {h h' : Host} {t t' : SourceSet} (hh : K.hosts h h') (ht : K.sources t t') :
    K.Cycles ⟨h, t, .none⟩ ⟨h', t', .none⟩ :=
  ⟨hh, ht, rfl, by simp [Pending.none], by simp [Pending.none]⟩

/-! ## Steps -/

theorem lockstep_onHost {act : Action Host α} {act' : Action Host β} (h : Lockstep K.hosts P act act') :
    Lockstep K.Cycles P (onHost act) (onHost act') :=
  lockstep_within (fun _ _ hc => hc.hosts)
    (fun _ _ _ _ hc hh => ⟨hh, hc.sources, hc.pending, hc.created, hc.createdDirs⟩) h

theorem abreast_onSources {act : Disk → Action SourceSet α} {act' : Disk → Action SourceSet β}
    (hc : K.Cycles c c') (h : Lockstep K.sources P (act c.host.disk) (act' c'.host.disk)) :
    Abreast K.Cycles P ((onSources act).runOn c) ((onSources act').runOn c') := by
  obtain ⟨hmatch, hafter⟩ := h _ _ hc.sources
  exact ⟨hmatch, hc.hosts, hafter, hc.pending, hc.created, hc.createdDirs⟩

/-- What is noted leaves what was created at absolute paths. -/
theorem lockstep_note {change : Pending → Pending}
    (hcreated : ∀ p : Pending, (∀ kp ∈ p.created, kp.2.isAbsolute = true) →
      ∀ kp ∈ (change p).created, kp.2.isAbsolute = true)
    (hdirs : ∀ p : Pending, (∀ dir ∈ p.createdDirs, dir.isAbsolute = true) →
      ∀ dir ∈ (change p).createdDirs, dir.isAbsolute = true) :
    Lockstep K.Cycles Eq (note change) (note change) :=
  lockstep_modify fun c _ hc => ⟨hc.hosts, hc.sources, congrArg change hc.pending,
    hcreated c.pending hc.created, hdirs c.pending hc.createdDirs⟩

section Steps

variable (hK : K.Lawful)
include hK

/-- An artifact is created on both sides or on neither. -/
theorem lockstep_materialize (ha : a.location.isAbsolute = true) :
    Lockstep K.Cycles Eq (materialize a) (materialize a) := by
  have hparent : a.location.parent.isAbsolute = true := ha
  refine lockstep_bind (lockstep_onHost (Store.lockstep_createDirectories hK.mirroring hparent))
    fun dirs dirs' hdirs => ?_
  obtain ⟨rfl, habs⟩ := hdirs
  refine lockstep_bind_eq (lockstep_note (fun _ h => h) fun p h dir hdir => ?_) fun _ => ?_
  · exact (List.mem_append.mp hdir).elim (h dir) (habs dir)
  refine lockstep_bind_eq (lockstep_onHost (Store.lockstep_createIfAbsent hK.mirroring ha))
    fun created => ?_
  cases created with
  | false => exact lockstep_pure rfl
  | true =>
    refine lockstep_bind_eq (lockstep_note (fun p h kp hkp => ?_) fun _ h => h) fun _ => lockstep_pure rfl
    rcases List.mem_append.mp hkp with hkp | hkp
    · exact h kp (List.mem_of_mem_filter hkp)
    · rw [List.mem_singleton.mp hkp]
      exact ha

theorem lockstep_touch (ha : a.location.isAbsolute = true) :
    Lockstep K.Cycles Eq (Cycle.touch a) (Cycle.touch a) :=
  lockstep_bind_eq (lockstep_onHost (hK.touch ha)) fun _ => lockstep_note (fun _ h => h) fun _ h => h

omit hK in
theorem lockstep_record (a : ArtifactFile) (sources : List Path) :
    Lockstep K.Cycles Eq (Cycle.record a sources) (Cycle.record a sources) :=
  lockstep_note (fun _ h => h) fun _ h => h

omit hK in
/-- An artifact has the location that it is the artifact at. -/
theorem lockstep_artifact (hp : p.isAbsolute = true) :
    Lockstep K.Cycles (fun a b => a = b ∧ a.location.isAbsolute = true)
      (Action.ofExcept id (l.artifact p)) (Action.ofExcept id (l.artifact p)) := by
  refine lockstep_ofExcept ?_
  rcases ha : l.artifact p with e | a
  · exact .error e
  · exact .ok ⟨rfl, by rw [(Layout.artifact_ok ha).1]; exact hp⟩

/-- What is brought in of a source is one artifact. -/
theorem lockstep_editArtifact (f : TrackedFile) (hp : p.isAbsolute = true) :
    Lockstep K.Cycles Eq (editArtifact l f p) (editArtifact l f p) := by
  refine lockstep_bind (lockstep_artifact hp) fun a b hab => ?_
  obtain ⟨rfl, ha⟩ := hab
  refine lockstep_bind_eq (lockstep_materialize hK ha) fun created => ?_
  cases created with
  | false => exact lockstep_bind_eq (lockstep_touch hK ha) fun _ => lockstep_record a _
  | true => exact lockstep_record a _

/-- The same locations are found for a source that is readable. -/
theorem abreast_artifactLocations (hc : K.Cycles c c') (hf : K.readable c.host.disk f) :
    Abreast K.Cycles Eq ((artifactLocations l resolve f).runOn c)
      ((artifactLocations l resolve f).runOn c') := by
  refine abreast_bind (abreast_onSources hc (hK.unitOf hc.hosts hf)) fun unit unit' d d' _ _ heq hd => ?_
  subst heq
  cases unit with
  | none => exact lockstep_pure rfl d d' hd
  | some unit => exact lockstep_ofExcept .refl d d' hd

/-- A source that is readable is brought in by both. -/
theorem abreast_editSource (hl : l.Sound) (hc : K.Cycles c c') (hf : K.readable c.host.disk f) :
    Abreast K.Cycles Eq ((editSource l resolve f).runOn c) ((editSource l resolve f).runOn c') := by
  refine abreast_bind (abreast_artifactLocations hK hc hf) fun ps ps' d d' hps _ heq hd => ?_
  subst heq
  refine lockstep_forM ps (fun p hp => lockstep_editArtifact hK f ?_) d d' hd
  exact (hl.straight (artifactLocations_below hps p hp)).isAbsolute

/-- Edits go on side by side as long as the sources that they come to are readable. -/
theorem abreast_editSteps (hl : l.Sound) (hc : K.Cycles c c')
    (hread : ∀ files d f e, (onSources SourceSet.listed).runOn c = (.ok files, d) →
      ComesTo (editSource l resolve) (files.filter fun f => affected.contains f.path) d f e →
      K.readable e.host.disk f) :
    Abreast K.Cycles Eq ((editSteps l resolve affected).runOn c)
      ((editSteps l resolve affected).runOn c') := by
  refine abreast_bind (abreast_onSources hc (hK.listed hc.hosts)) fun files files' d d' hd _ heq hdd => ?_
  subst heq
  exact abreast_forM hdd fun f e e' hcomes he =>
    abreast_editSource hK hl he (hread files d f e hd hcomes)

omit hK in
/-- One set of rules finds the same outputs affected. -/
theorem isAffected_of_sameRules {t t' : SourceSet} (h : SourceSet.SameRules t t')
    (sources previous : List Path) :
    isAffected t' affected sources previous = isAffected t affected sources previous := by
  have hany : ∀ ps : List Path, anyAffected t' affected ps = anyAffected t affected ps := by
    intro ps
    induction ps with
    | nil => rfl
    | cons p ps ih => rw [anyAffected, anyAffected, h.resolve?, ih]
  rw [isAffected, isAffected, hany, hany]

/-- What an output brings in is one artifact. -/
theorem lockstep_rebuildOutput (hl : l.Sound) (ledger : Ledger) (affected : List Text) (o : Output) :
    Lockstep K.Cycles Eq (rebuildOutput l ledger affected o) (rebuildOutput l ledger affected o) := by
  have hlocate : Lockstep K.Cycles (fun p q : Path => p = q ∧ p.isAbsolute = true)
      (Action.ofExcept .artifact (Artifact.locate l.outputRoot o.path))
      (Action.ofExcept .artifact (Artifact.locate l.outputRoot o.path)) := by
    refine lockstep_ofExcept ?_
    rcases hp : Artifact.locate l.outputRoot o.path with e | p
    · exact .error e
    · exact .ok ⟨rfl, (hl.straight (Artifact.locate_below hp)).isAbsolute⟩
  refine lockstep_bind hlocate fun p q hpq => ?_
  obtain ⟨rfl, hp⟩ := hpq
  refine lockstep_bind (lockstep_artifact hp) fun a b hab => ?_
  obtain ⟨rfl, ha⟩ := hab
  refine lockstep_bind_eq (lockstep_materialize hK ha) fun created => ?_
  refine lockstep_bind lockstep_get fun c c' hc => ?_
  dsimp only
  rw [isAffected_of_sameRules (hK.rules hc.sources)]
  refine lockstep_bind_eq (lockstep_ofExcept .refl) fun hit => ?_
  cases hit with
  | false => exact lockstep_record a _
  | true => exact lockstep_bind_eq (lockstep_touch hK ha) fun _ => lockstep_record a _

/-- Rebuilds go in lockstep. -/
theorem lockstep_rebuildSteps (hl : l.Sound) (ledger : Ledger) (affected : List Text) (build : Build) :
    Lockstep K.Cycles Eq (rebuildSteps l ledger affected build) (rebuildSteps l ledger affected build) :=
  lockstep_forM build fun o _ => lockstep_rebuildOutput hK hl ledger affected o

end Steps

/-! ## Taking back -/

section Rollback

variable {R : Host → Host → Prop}

theorem lockstep_undo (label : Text) {act : Action Host Unit} (h : Lockstep R Eq act act) :
    Lockstep R Eq (undo label act) (undo label act) := by
  refine lockstep_bind (lockstep_attempt h) fun r r' hr => ?_
  obtain rfl := hr.eq
  cases r with
  | ok u => exact lockstep_pure rfl
  | error f =>
    dsimp only
    split
    · exact lockstep_pure rfl
    · exact lockstep_throw f

theorem lockstep_undoAll (undos : List (Text × Action Host Unit))
    (h : ∀ u ∈ undos, Lockstep R Eq u.2 u.2) : Lockstep R Eq (undoAll undos) (undoAll undos) := by
  induction undos with
  | nil => exact lockstep_pure rfl
  | cons u undos ih =>
    refine lockstep_bind_eq (lockstep_undo _ (h u (List.mem_cons_self ..))) fun lines => ?_
    refine lockstep_bind_eq (ih fun v hv => h v (List.mem_cons_of_mem _ hv)) fun more => ?_
    exact lockstep_pure rfl

/-- What was created at absolute paths is taken back in lockstep. -/
theorem lockstep_rollback (hR : Mirroring R) {p : Pending}
    (hcreated : ∀ kp ∈ p.created, kp.2.isAbsolute = true)
    (hdirs : ∀ dir ∈ p.createdDirs, dir.isAbsolute = true) :
    Lockstep R Eq (rollback p) (rollback p) := by
  refine lockstep_undoAll _ fun u hu => ?_
  rcases List.mem_append.mp hu with hu | hu
  · obtain ⟨kp, hkp, rfl⟩ := List.mem_map.mp hu
    exact Store.lockstep_delete hR (hcreated kp (List.mem_reverse.mp hkp))
  · obtain ⟨dir, hdir, rfl⟩ := List.mem_map.mp hu
    exact Store.lockstep_removeDirectory hR (hdirs dir (List.mem_reverse.mp hdir))

end Rollback

end Provenance.Update
