/-
What the steps of an update leave alone.

An update acts on its host through the store and in no other way. A relation
between hosts that the calls of the store respect is therefore respected by every
step, by both kinds of updates and by the taking back of a failed one. `Kept` lists
the calls that have to be looked at; legal disks are the first relation that the
list is gone through for.
-/
import Provenance.Proofs.Store
import Provenance.Proofs.Update.Layout

set_option autoImplicit false

namespace Provenance.Update

open Action Host

namespace Cycle

/-! ## Running on a part of a cycle -/

@[simp] theorem runOn_onHost {α : Type} (act : Action Host α) (c : Cycle) :
    (onHost act).runOn c = ((act.runOn c.host).1, { c with host := (act.runOn c.host).2 }) := rfl

@[simp] theorem runOn_onSources {α : Type} (act : Disk → Action SourceSet α) (c : Cycle) :
    (onSources act).runOn c
      = (((act c.host.disk).runOn c.sources).1,
        { c with sources := ((act c.host.disk).runOn c.sources).2 }) := rfl

@[simp] theorem runOn_note (change : Pending → Pending) (c : Cycle) :
    (note change).runOn c = (.ok (), { c with pending := change c.pending }) := rfl

/-! ## Relations between hosts -/

/-- The hosts of two states of a cycle are related. -/
def OnHosts (R : Host → Host → Prop) (c c' : Cycle) : Prop := R c.host c'.host

variable {R : Host → Host → Prop}

theorem stepwise_onHosts (hR : Stepwise R) : Stepwise (OnHosts R) :=
  ⟨fun c => hR.refl c.host, fun h h' => hR.trans h h'⟩

theorem respects_onHost {α : Type} {act : Action Host α} (h : Respects R act) :
    Respects (OnHosts R) (onHost act) := fun c => h c.host

theorem respects_onSources {α : Type} (hR : Stepwise R) (act : Disk → Action SourceSet α) :
    Respects (OnHosts R) (onSources act) := fun c => hR.refl c.host

theorem respects_note (hR : Stepwise R) (change : Pending → Pending) :
    Respects (OnHosts R) (note change) := fun c => hR.refl c.host

end Cycle

/-! ## The steps, one by one -/

section Steps

variable {c c' : Cycle} {a : ArtifactFile} {l : Layout}

/-- How an artifact is made sure of: the directories first, then the file. -/
theorem materialize_steps {created : Bool} (hr : (Cycle.materialize a).runOn c = (.ok created, c')) :
    ∃ dirs h₁ h₂, (Store.createDirectories a.location.parent).runOn c.host = (.ok dirs, h₁)
      ∧ (Store.createIfAbsent a.location).runOn h₁ = (.ok created, h₂)
      ∧ c' = { c with
          host := h₂
          pending := { c.pending with
            createdDirs := c.pending.createdDirs ++ dirs
            created := if created
              then c.pending.created.filter (·.1 ≠ a.key) ++ [(a.key, a.location)]
              else c.pending.created } } := by
  obtain ⟨dirs, c₁, hmake, hrest⟩ := bind_ok_iff.mp hr
  rw [Cycle.runOn_onHost] at hmake
  obtain ⟨hdirs, rfl⟩ := Prod.mk.inj hmake
  obtain ⟨_, c₂, hnote, hrest⟩ := bind_ok_iff.mp hrest
  obtain rfl : _ = c₂ := (Prod.mk.inj hnote).2
  obtain ⟨b, c₃, hcreate, hrest⟩ := bind_ok_iff.mp hrest
  rw [Cycle.runOn_onHost] at hcreate
  obtain ⟨hb, rfl⟩ := Prod.mk.inj hcreate
  cases b with
  | false =>
    obtain ⟨hcreated, rfl⟩ := Prod.mk.inj hrest
    obtain rfl := Except.ok.inj hcreated
    exact ⟨dirs, _, _, Prod.ext hdirs rfl, Prod.ext hb rfl, rfl⟩
  | true =>
    obtain ⟨_, c₄, hnote', hpure⟩ := bind_ok_iff.mp hrest
    obtain rfl : _ = c₄ := (Prod.mk.inj hnote').2
    obtain ⟨hcreated, rfl⟩ := Prod.mk.inj hpure
    obtain rfl := Except.ok.inj hcreated
    exact ⟨dirs, _, _, Prod.ext hdirs rfl, Prod.ext hb rfl, rfl⟩

/-- What is noted of an artifact that has been made sure of: that it was created, if it was. -/
theorem noted_materialize {created : Bool} (hr : (Cycle.materialize a).runOn c = (.ok created, c')) :
    c'.sources = c.sources ∧ c'.pending.entries = c.pending.entries
      ∧ c'.pending.touched = c.pending.touched
      ∧ c'.pending.created = if created
          then c.pending.created.filter (·.1 ≠ a.key) ++ [(a.key, a.location)]
          else c.pending.created := by
  obtain ⟨dirs, h₁, h₂, -, -, rfl⟩ := materialize_steps hr
  exact ⟨rfl, rfl, rfl, rfl⟩

/-- How an artifact is touched. -/
theorem touch_steps {u : Unit} (hr : (Cycle.touch a).runOn c = (.ok u, c')) :
    ∃ h₁, (Store.touch a.location).runOn c.host = (.ok (), h₁)
      ∧ c' = { c with
          host := h₁
          pending := { c.pending with
            touched := if c.pending.touched.contains a.key then c.pending.touched
              else c.pending.touched ++ [a.key] } } := by
  obtain ⟨_, c₁, ht, hrest⟩ := bind_ok_iff.mp hr
  rw [Cycle.runOn_onHost] at ht
  obtain ⟨hok, rfl⟩ := Prod.mk.inj ht
  obtain rfl : _ = c' := (Prod.mk.inj hrest).2
  exact ⟨_, Prod.ext hok rfl, rfl⟩

/-- What is noted of an artifact that has been touched. -/
theorem noted_touch {u : Unit} (hr : (Cycle.touch a).runOn c = (.ok u, c')) :
    c'.sources = c.sources ∧ c'.pending.entries = c.pending.entries
      ∧ c'.pending.created = c.pending.created
      ∧ ∀ k, k ∈ c'.pending.touched ↔ k ∈ c.pending.touched ∨ k = a.key := by
  obtain ⟨h₁, -, rfl⟩ := touch_steps hr
  refine ⟨rfl, rfl, rfl, fun k => ?_⟩
  by_cases hmem : a.key ∈ c.pending.touched
  · simpa [hmem] using fun heq => heq ▸ hmem
  · simp [hmem]

/-- How an output is brought in: made sure of, touched if one of its sources is affected, and
recorded. -/
theorem rebuildOutput_steps {ledger : Ledger} {affected : List Text} {o : Output} {u : Unit}
    (hr : (rebuildOutput l ledger affected o).runOn c = (.ok u, c')) :
    ∃ a created c₁ b c₂, Artifact.locate l.outputRoot o.path = .ok a.location
      ∧ a.location.key l.projectRoot = .ok a.key
      ∧ (Cycle.materialize a).runOn c = (.ok created, c₁)
      ∧ isAffected c.sources affected o.sources (ledger.sourcesOf a.key) = .ok b
      ∧ (if b then Cycle.touch a else pure ()).runOn c₁ = (.ok (), c₂)
      ∧ (Cycle.record a o.sources).runOn c₂ = (.ok (), c') := by
  obtain ⟨p, _, hp, h₁⟩ := bind_ok_iff.mp hr
  obtain ⟨hlocate, rfl⟩ := ofExcept_ok_iff.mp hp
  obtain ⟨a, _, ha, h₂⟩ := bind_ok_iff.mp h₁
  obtain ⟨hartifact, rfl⟩ := ofExcept_ok_iff.mp ha
  obtain ⟨rfl, hkey⟩ := Layout.artifact_ok hartifact
  obtain ⟨created, c₁, hm, h₃⟩ := bind_ok_iff.mp h₂
  obtain ⟨_, _, hget, h₄⟩ := bind_ok_iff.mp h₃
  obtain ⟨rfl, rfl⟩ := get_ok_iff.mp hget
  obtain ⟨b, _, hb, h₅⟩ := bind_ok_iff.mp h₄
  obtain ⟨haff, rfl⟩ := ofExcept_ok_iff.mp hb
  have hsources : c₁.sources = c.sources := by
    obtain ⟨_, _, _, -, -, rfl⟩ := materialize_steps hm
    rfl
  rw [hsources] at haff
  cases b with
  | false => exact ⟨a, created, c₁, false, c₁, hlocate, hkey, hm, haff, rfl, h₅⟩
  | true =>
    obtain ⟨_, c₂, ht, h₆⟩ := bind_ok_iff.mp h₅
    exact ⟨a, created, c₁, true, c₂, hlocate, hkey, hm, haff, ht, h₆⟩

/-- How an edit brings in an artifact: made sure of, touched if it was there, and recorded. -/
theorem editArtifact_steps {f : TrackedFile} {p : Path} {u : Unit}
    (hr : (editArtifact l f p).runOn c = (.ok u, c')) :
    ∃ a created c₁ c₂, a.location = p ∧ p.key l.projectRoot = .ok a.key
      ∧ (Cycle.materialize a).runOn c = (.ok created, c₁)
      ∧ (if created then pure () else Cycle.touch a).runOn c₁ = (.ok (), c₂)
      ∧ (Cycle.record a [f.location]).runOn c₂ = (.ok (), c') := by
  obtain ⟨a, _, ha, h₁⟩ := bind_ok_iff.mp hr
  obtain ⟨hartifact, rfl⟩ := ofExcept_ok_iff.mp ha
  obtain ⟨hloc, hkey⟩ := Layout.artifact_ok hartifact
  obtain ⟨created, c₁, hm, h₂⟩ := bind_ok_iff.mp h₁
  cases created with
  | true => exact ⟨a, true, c₁, c₁, hloc, hkey, hm, rfl, h₂⟩
  | false =>
    obtain ⟨_, c₂, ht, h₃⟩ := bind_ok_iff.mp h₂
    exact ⟨a, false, c₁, c₂, hloc, hkey, hm, ht, h₃⟩

end Steps

/-- The locations that an edit comes by are those of class files. -/
theorem artifactLocations_classes {l : Layout} {resolve : Resolver} {f : TrackedFile} {c c' : Cycle}
    {ps : List Path} (h : (artifactLocations l resolve f).runOn c = (.ok ps, c')) :
    ∀ p ∈ ps, ∃ cls, classLocation l cls = .ok p := by
  obtain ⟨unit, c₁, -, hrest⟩ := bind_ok_iff.mp h
  cases unit with
  | none =>
    obtain ⟨rfl, -⟩ : [] = ps ∧ c₁ = c' := by simpa using hrest
    simp
  | some unit =>
    exact locationsOf_classes (ofExcept_ok_iff.mp hrest).1

theorem artifactLocations_below {l : Layout} {resolve : Resolver} {f : TrackedFile} {c c' : Cycle}
    {ps : List Path} (h : (artifactLocations l resolve f).runOn c = (.ok ps, c')) :
    ∀ p ∈ ps, p.Below l.outputRoot := by
  intro p hp
  obtain ⟨cls, hcls⟩ := artifactLocations_classes h p hp
  exact classLocation_below hcls

/-! ## What the steps respect -/

/-- A relation between the states of an update that the parts of its steps respect, the artifacts being
at locations that meet a condition. -/
structure KeptSteps (S : Cycle → Cycle → Prop) (P : Path → Prop) : Prop where
  stepwise : Stepwise S
  sources : ∀ {α : Type} (act : Disk → Action SourceSet α), Respects S (Cycle.onSources act)
  record : ∀ (a : ArtifactFile) (sources : List Path), Respects S (Cycle.record a sources)
  materialize : ∀ a : ArtifactFile, P a.location → Respects S (Cycle.materialize a)
  touch : ∀ a : ArtifactFile, P a.location → Respects S (Cycle.touch a)

section KeptSteps

variable {S : Cycle → Cycle → Prop} {P : Path → Prop} {l : Layout} {p : Path} (hS : KeptSteps S P)
include hS

/-- What an output brings in is one artifact. -/
theorem KeptSteps.rebuildOutput (ledger : Ledger) (affected : List Text) (o : Output)
    (houtput : ∀ p, Artifact.locate l.outputRoot o.path = .ok p → P p) :
    Respects S (rebuildOutput l ledger affected o) := by
  have hR := hS.stepwise
  refine respects_bind_of hR (P := P) (respects_ofExcept hR _ _)
    (fun s p s' h => houtput p (ofExcept_ok_iff.mp h).1) fun p hp => ?_
  refine respects_bind_of hR (P := fun a => P a.location) (respects_ofExcept hR _ _)
    (fun s a s' h => ?_) fun a ha => ?_
  · rw [(Layout.artifact_ok (ofExcept_ok_iff.mp h).1).1]
    exact hp
  apply respects_bind hR (hS.materialize a ha)
  intro _
  apply respects_bind hR (respects_get hR)
  intro c
  apply respects_bind hR (respects_ofExcept hR _ _)
  intro b
  cases b
  · exact hS.record a o.sources
  · exact respects_bind hR (hS.touch a ha) fun _ => hS.record a o.sources

theorem KeptSteps.editArtifact (f : TrackedFile) (hp : P p) : Respects S (editArtifact l f p) := by
  have hR := hS.stepwise
  refine respects_bind_of hR (P := fun a => a.location = p) (respects_ofExcept hR _ _)
    (fun s a s' h => (Layout.artifact_ok (ofExcept_ok_iff.mp h).1).1) fun a ha => ?_
  subst ha
  apply respects_bind hR (hS.materialize a hp)
  intro created
  cases created
  · exact respects_bind hR (hS.touch a hp) fun _ => hS.record a _
  · exact hS.record a _

theorem KeptSteps.artifactLocations (l : Layout) (resolve : Resolver) (f : TrackedFile) :
    Respects S (artifactLocations l resolve f) := by
  apply respects_bind hS.stepwise (hS.sources _)
  intro unit
  cases unit
  · exact respects_pure hS.stepwise _
  · exact respects_ofExcept hS.stepwise _ _

/-- What a source brings in are class files. -/
theorem KeptSteps.editSource (resolve : Resolver) (f : TrackedFile)
    (hclass : ∀ cls p, classLocation l cls = .ok p → P p) : Respects S (editSource l resolve f) := by
  refine respects_bind_of hS.stepwise (hS.artifactLocations l resolve f)
    (fun c ps c' hr => artifactLocations_classes hr) fun ps hps => ?_
  refine respects_forM hS.stepwise ps fun p hp => ?_
  obtain ⟨cls, hcls⟩ := hps p hp
  exact hS.editArtifact f (hclass cls p hcls)

/-- The steps of a full rebuild bring in artifacts below the output directory. -/
theorem KeptSteps.rebuildSteps (hbelow : ∀ p, p.Below l.outputRoot → P p) (ledger : Ledger)
    (affected : List Text) (build : Build) : Respects S (rebuildSteps l ledger affected build) :=
  respects_forM hS.stepwise build fun o _ =>
    hS.rebuildOutput ledger affected o fun p hp => hbelow p (Artifact.locate_below hp)

/-- So do the steps of an incremental edit. -/
theorem KeptSteps.editSteps (hbelow : ∀ p, p.Below l.outputRoot → P p) (resolve : Resolver)
    (affected : List Text) : Respects S (editSteps l resolve affected) := by
  apply respects_bind hS.stepwise (hS.sources _)
  intro files
  exact respects_forM hS.stepwise _ fun f _ =>
    hS.editSource resolve f fun _ p hp => hbelow p (classLocation_below hp)

end KeptSteps

/-- A relation between hosts that the calls of the store on some locations respect is respected by
steps on these. -/
theorem keptSteps_onHosts {R : Host → Host → Prop} {P : Path → Prop} (hR : Stepwise R)
    (hdirs : ∀ p, P p → Respects R (Store.createDirectories p.parent))
    (hfile : ∀ p, P p → Respects R (Store.createIfAbsent p))
    (htouch : ∀ p, P p → Respects R (Store.touch p)) : KeptSteps (Cycle.OnHosts R) P where
  stepwise := Cycle.stepwise_onHosts hR
  sources act := Cycle.respects_onSources hR act
  record _ _ := Cycle.respects_note hR _
  materialize a ha := by
    have hS := Cycle.stepwise_onHosts hR
    apply respects_bind hS (Cycle.respects_onHost (hdirs _ ha))
    intro dirs
    apply respects_bind hS (Cycle.respects_note hR _)
    intro _
    apply respects_bind hS (Cycle.respects_onHost (hfile _ ha))
    intro created
    cases created
    · exact respects_pure hS _
    · exact respects_bind hS (Cycle.respects_note hR _) fun _ => respects_pure hS _
  touch a ha := respects_bind (Cycle.stepwise_onHosts hR) (Cycle.respects_onHost (htouch _ ha))
    fun _ => Cycle.respects_note hR _

/-- A relation between hosts that the calls of the store on artifacts respect. -/
structure Kept (R : Host → Host → Prop) (l : Layout) : Prop where
  stepwise : Stepwise R
  createDirectories : ∀ p : Path, p.Below l.outputRoot → Respects R (Store.createDirectories p.parent)
  createIfAbsent : ∀ p : Path, p.Below l.outputRoot → Respects R (Store.createIfAbsent p)
  touch : ∀ p : Path, p.Below l.outputRoot → Respects R (Store.touch p)

section Kept

variable {R : Host → Host → Prop} {l : Layout} (hK : Kept R l)
include hK

theorem Kept.steps : KeptSteps (Cycle.OnHosts R) (·.Below l.outputRoot) :=
  keptSteps_onHosts hK.stepwise hK.createDirectories hK.createIfAbsent hK.touch

/-- The steps of a full rebuild respect what the store does. -/
theorem Kept.rebuildSteps (ledger : Ledger) (affected : List Text) (build : Build) :
    Respects (Cycle.OnHosts R) (rebuildSteps l ledger affected build) :=
  hK.steps.rebuildSteps (fun _ hp => hp) ledger affected build

/-- The steps of an incremental edit respect what the store does. -/
theorem Kept.editSteps (resolve : Resolver) (affected : List Text) :
    Respects (Cycle.OnHosts R) (editSteps l resolve affected) :=
  hK.steps.editSteps (fun _ hp => hp) resolve affected

end Kept

/-! ## Taking back -/

section Rollback

variable {R : Host → Host → Prop} (hR : Stepwise R)
include hR

theorem respects_undo (label : Text) {act : Action Host Unit} (h : Respects R act) :
    Respects R (Cycle.undo label act) := by
  apply respects_bind hR (respects_attempt h)
  intro r
  cases r with
  | ok u => exact respects_pure hR _
  | error f =>
    dsimp only
    split
    · exact respects_pure hR _
    · exact respects_throw hR _

theorem respects_undoAll (undos : List (Text × Action Host Unit))
    (h : ∀ u ∈ undos, Respects R u.2) : Respects R (Cycle.undoAll undos) := by
  induction undos with
  | nil => exact respects_pure hR _
  | cons u undos ih =>
    apply respects_bind hR (respects_undo hR _ (h u (List.mem_cons_self ..)))
    intro _
    apply respects_bind hR (ih fun v hv => h v (List.mem_cons_of_mem _ hv))
    intro _
    exact respects_pure hR _

/-- Taking back an update deletes what it created and removes directories. -/
theorem respects_rollback (p : Pending)
    (hdelete : ∀ kp ∈ p.created, Respects R (Store.delete kp.2))
    (hremove : ∀ dir ∈ p.createdDirs, Respects R (Store.removeDirectory dir)) :
    Respects R (Cycle.rollback p) := by
  apply respects_undoAll hR _
  intro u hu
  rcases List.mem_append.mp hu with hu | hu
  · obtain ⟨kp, hkp, rfl⟩ := List.mem_map.mp hu
    exact hdelete kp (List.mem_reverse.mp hkp)
  · obtain ⟨dir, hdir, rfl⟩ := List.mem_map.mp hu
    exact hremove dir (List.mem_reverse.mp hdir)

end Rollback

/-- Steps that fail are taken back, and what comes of that is in the failure. -/
theorem guarded_eq (operation : Text) (steps : Action Cycle Unit) (c : Cycle) :
    (Cycle.guarded operation steps).runOn c
      = match steps.runOn c with
        | (.ok _, c') => (.ok (), c')
        | (.error f, c') =>
          match (Cycle.rollback c'.pending).runOn c'.host with
          | (.ok lines, h) => (.error (Cycle.failureOf operation lines f), { c' with host := h })
          | (.error g, h) => (.error g, { c' with host := h }) := by
  unfold Cycle.guarded
  rw [runOn_bind, runOn_attempt]
  dsimp only
  rcases hs : steps.runOn c with ⟨f | u, c'⟩
  · dsimp only
    rw [runOn_bind, runOn_get]
    dsimp only
    rw [runOn_bind, Cycle.runOn_onHost]
    rcases (Cycle.rollback c'.pending).runOn c'.host with ⟨g | lines, h⟩ <;> rfl
  · rfl

theorem blames_undo (label : Text) {act : Action Host Unit} (h : Blames IsCall act) :
    Blames IsCall (Cycle.undo label act) := by
  refine blames_attempt_bind h (fun _ => blames_pure _) fun f hf => ?_
  dsimp only
  split
  · exact blames_pure _
  · exact blames_throw hf

theorem blames_undoAll (undos : List (Text × Action Host Unit))
    (h : ∀ u ∈ undos, Blames IsCall u.2) : Blames IsCall (Cycle.undoAll undos) := by
  induction undos with
  | nil => exact blames_pure _
  | cons u undos ih =>
    apply blames_bind (blames_undo _ (h u (List.mem_cons_self ..)))
    intro _
    exact blames_bind (ih fun v hv => h v (List.mem_cons_of_mem _ hv)) fun _ => blames_pure _

/-- Taking back fails only as the calls of the store do. -/
theorem blames_rollback (p : Pending) : Blames IsCall (Cycle.rollback p) := by
  apply blames_undoAll _
  intro u hu
  rcases List.mem_append.mp hu with hu | hu
  · obtain ⟨kp, -, rfl⟩ := List.mem_map.mp hu
    exact Store.blames_delete _
  · obtain ⟨dir, -, rfl⟩ := List.mem_map.mp hu
    exact Store.blames_removeDirectory _

/-! ## Legal disks stay legal -/

section Legal

variable {l : Layout} (hl : l.Sound)
include hl

theorem Layout.Sound.kept : Kept (Across StaysLegal) l where
  stepwise := stepwise_staysLegal
  createDirectories _ hp := Store.staysLegal_createDirectories (hl.straight hp).parent
  createIfAbsent _ hp := Store.staysLegal_createIfAbsent (hl.straight hp)
  touch p _ := Store.staysLegal_touch p

end Legal

/-- The calls of the store on artifacts leave faults failed calls. -/
theorem keptIo (l : Layout) : Kept StaysIo l where
  stepwise := stepwise_staysIo
  createDirectories _ _ := Store.staysIo_createDirectories _
  createIfAbsent _ _ := Store.staysIo_createIfAbsent _
  touch _ _ := Store.staysIo_touch _

/-- Whatever a guarded update does, it leaves a legal disk. -/
theorem staysLegal_guarded (operation : Text) {steps : Action Cycle Unit}
    (h : Respects (Cycle.OnHosts (Across StaysLegal)) steps) :
    Respects (Cycle.OnHosts (Across StaysLegal)) (Cycle.guarded operation steps) := by
  have hR := Cycle.stepwise_onHosts stepwise_staysLegal
  apply respects_bind hR (respects_attempt h)
  intro r
  cases r with
  | ok u => exact respects_pure hR _
  | error f =>
    apply respects_bind hR (respects_get hR)
    intro c
    refine respects_bind hR (Cycle.respects_onHost ?_) fun lines => respects_throw hR _
    exact respects_rollback stepwise_staysLegal _ (fun kp _ => Store.staysLegal_delete kp.2)
      fun dir _ => Store.staysLegal_removeDirectory dir

end Provenance.Update
