/-
An edit and a rebuild of the same sources.

An edit makes, touches and records the artifacts that its sources declare, and a rebuild
those of the outputs that it is given. Given the outputs that the sources declare, both
come to the same: the same entries and the same artifacts created, on disks that differ in
times alone. They do not touch the same artifacts. An edit touches those that it has not
created, a rebuild all of them, since each is made from an affected source.

The two go on side by side, one output for each artifact of a source. `Paired` is what
holds of them in between, and each step keeps it.
-/
import Provenance.Proofs.Mirror
import Provenance.Proofs.Update.Table

set_option autoImplicit false

namespace Provenance.Update

open Action Cycle Host

variable {l : Layout} {resolve : Resolver} {f : TrackedFile} {s : SourceSet} {ledger : Ledger}
  {affected : List Text} {c c' e e' : Cycle} {a : ArtifactFile} {o : Output} {p : Path}
  {u u' : Unit}

/-! ## Outputs of a source -/

/-- The output that a declaration of a source is compiled to, if it has a full name that stands for
a class. -/
def outputOf? (resolve : Resolver) (f : TrackedFile) (d : Outline.Declaration) : Option Output :=
  match d.fullName.map resolve with
  | some (.ok (some c)) => some ⟨c.internalName ++ Artifact.classSuffix, [f.location]⟩
  | _ => none

/-- The outputs that a unit of a source is compiled to. -/
def outputsOf (resolve : Resolver) (f : TrackedFile) : Option Outline.SourceUnit → Build
  | some unit => unit.topLevel.filterMap (outputOf? resolve f)
  | none => []

/-- The artifact at a location is the one that an output made from a source names. -/
def NamedBy (l : Layout) (f : TrackedFile) (p : Path) (o : Output) : Prop :=
  Artifact.locate l.outputRoot o.path = .ok p ∧ o.sources = [f.location]

/-- The locations that an edit comes by are those of the outputs, one by one. -/
theorem namedBy_locationsOf {ds : List Outline.Declaration} {ps : List Path}
    (h : locationsOf l resolve ds = .ok ps) :
    List.Forall₂ (NamedBy l f) ps (ds.filterMap (outputOf? resolve f)) := by
  induction ds generalizing ps with
  | nil =>
    obtain rfl := Except.ok.inj h
    exact .nil
  | cons d ds ih =>
    unfold locationsOf at h
    rcases hname : d.fullName with _ | name
    · rw [hname] at h
      rw [List.filterMap_cons_none (by rw [outputOf?, hname]; rfl)]
      exact ih h
    rw [hname] at h
    dsimp only at h
    obtain ⟨found, hfound, hrest⟩ := except_bind_ok_iff.mp h
    cases found with
    | none =>
      rw [List.filterMap_cons_none (by rw [outputOf?, hname, Option.map_some, hfound])]
      exact ih hrest
    | some c =>
      obtain ⟨q, hq, hrest⟩ := except_bind_ok_iff.mp hrest
      obtain ⟨qs, hqs, hps⟩ := except_bind_ok_iff.mp hrest
      obtain rfl : q :: qs = ps := Except.ok.inj hps
      rw [List.filterMap_cons_some (by rw [outputOf?, hname, Option.map_some, hfound])]
      exact .cons ⟨except_mapError_ok_iff.mp hq, rfl⟩ (ih hqs)

/-- The unit of a source as a cycle reads it. -/
def readUnit (f : TrackedFile) (c : Cycle) : Option Outline.SourceUnit :=
  match ((SourceSet.unitOf c.host.disk f).runOn c.sources).1 with
  | .ok unit => unit
  | .error _ => none

/-- The outputs of the sources that an edit brings in, each source read when the edit comes to it. -/
def readBuild (l : Layout) (resolve : Resolver) : List TrackedFile → Cycle → Build
  | [], _ => []
  | f :: fs, c =>
    outputsOf resolve f (readUnit f c) ++ readBuild l resolve fs ((editSource l resolve f).runOn c).2

/-! ## Side by side -/

/-- What holds of an edit and a rebuild that have brought in the same artifacts. -/
structure Paired (s : SourceSet) (c e : Cycle) : Prop where
  hosts : c.host.Alike e.host
  sources : e.sources = s
  entries : c.pending.entries = e.pending.entries
  created : c.pending.created = e.pending.created
  edited : ∀ k, k ∈ c.pending.entries.keys
    ↔ k ∈ c.pending.created.map Prod.fst ∨ k ∈ c.pending.touched
  rebuilt : ∀ k, k ∈ e.pending.entries.keys ↔ k ∈ e.pending.touched

/-- What holds of both at their beginning, on one host, whatever the edit has looked up by then. -/
theorem paired_none {h : Host} (hfaults : h.faults = []) (s s' : SourceSet) :
    Paired s ⟨h, s', .none⟩ ⟨h, s, .none⟩ where
  hosts := ⟨rfl, hfaults, hfaults⟩
  sources := rfl
  entries := rfl
  created := rfl
  edited k := by
    show k ∈ [] ↔ k ∈ [] ∨ k ∈ []
    simp
  rebuilt k := Iff.rfl

/-- An artifact is made on both sides or on neither. -/
theorem alike_materialize (hp : a.location.isAbsolute = true) (ha : c.host.Alike e.host)
    {created created' : Bool} (hr : (materialize a).runOn c = (.ok created, c'))
    (hr' : (materialize a).runOn e = (.ok created', e')) :
    created = created' ∧ c'.host.Alike e'.host := by
  obtain ⟨dirs, h₁, h₂, hmake, hcreate, rfl⟩ := materialize_steps hr
  obtain ⟨dirs', h₁', h₂', hmake', hcreate', rfl⟩ := materialize_steps hr'
  have habs : a.location.parent.isAbsolute = true := hp
  obtain ⟨-, ha₁⟩ := (Store.lockstep_createDirectories mirroring_alike habs).ok ha hmake hmake'
  exact (Store.lockstep_createIfAbsent mirroring_alike hp).ok ha₁ hcreate hcreate'

theorem alike_touch (ha : c.host.Alike e.host) (hr : (Cycle.touch a).runOn c = (.ok u, c')) :
    c'.host.Alike e.host := by
  obtain ⟨h₁, htouch, rfl⟩ := touch_steps hr
  exact Store.alike_touch ha htouch

/-- An artifact that has been brought in is recorded, and has been created or touched. -/
theorem editArtifact_notes (hr : (editArtifact l f p).runOn c = (.ok u, c')) :
    ∃ key, p.key l.projectRoot = .ok key
      ∧ c'.pending.entries = c.pending.entries.record key [f.location]
      ∧ ∀ k, (k ∈ c'.pending.created.map Prod.fst ∨ k ∈ c'.pending.touched)
        ↔ (k ∈ c.pending.created.map Prod.fst ∨ k ∈ c.pending.touched) ∨ k = key := by
  obtain ⟨a, created, c₁, c₂, rfl, hkey, hmake, htouch, hrecord⟩ := editArtifact_steps hr
  obtain ⟨-, hentries₁, htouched₁, hcreated₁⟩ := noted_materialize hmake
  obtain rfl : _ = c' := (Prod.mk.inj hrecord).2
  refine ⟨a.key, hkey, ?_⟩
  show c₂.pending.entries.record a.key [f.location] = _
    ∧ ∀ k, (k ∈ c₂.pending.created.map Prod.fst ∨ k ∈ c₂.pending.touched) ↔ _
  cases created with
  | true =>
    obtain rfl : c₁ = c₂ := (Prod.mk.inj htouch).2
    refine ⟨by rw [hentries₁], fun k => ?_⟩
    rw [htouched₁, hcreated₁, if_pos rfl]
    by_cases hk : k = a.key
    · simp [hk]
    · simp [hk]
  | false =>
    obtain ⟨-, hentries₂, hcreated₂, htouched₂⟩ := noted_touch htouch
    refine ⟨by rw [hentries₂, hentries₁], fun k => ?_⟩
    rw [htouched₂, hcreated₂, htouched₁, hcreated₁, if_neg Bool.false_ne_true]
    exact or_assoc.symm

/-- One artifact is made sure of, touched and recorded by both. -/
theorem Paired.artifact (hl : l.Sound) (hp : Paired s c e) (hnamed : NamedBy l f p o)
    (hback : s.resolve? f.location.text = some f) (haff : f.path ∈ affected)
    (hr : (editArtifact l f p).runOn c = (.ok u, c'))
    (hr' : (rebuildOutput l ledger affected o).runOn e = (.ok u', e')) : Paired s c' e' := by
  obtain ⟨noted, hnotedKey, hentries, hnoted⟩ := editArtifact_notes hr
  obtain ⟨a, created, c₁, c₂, rfl, hkey, hmake, htouch, hrecord⟩ := editArtifact_steps hr
  obtain ⟨b, created', e₁, hit, e₂, hlocate, hkey', hmake', hhit, htouch', hrecord'⟩ :=
    rebuildOutput_steps hr'
  obtain ⟨hnamed, hsources⟩ := hnamed
  obtain rfl : noted = a.key := Except.ok.inj (hnotedKey.symm.trans hkey)
  -- both come to one artifact
  obtain rfl : a = b := by
    obtain ⟨key, location⟩ := a
    obtain ⟨key', location'⟩ := b
    obtain rfl : location = location' := Except.ok.inj (hnamed.symm.trans hlocate)
    obtain rfl : key = key' := Except.ok.inj (hkey.symm.trans hkey')
    rfl
  have habs := (hl.straight (Artifact.locate_below hnamed)).isAbsolute
  obtain ⟨rfl, hhosts⟩ := alike_materialize habs hp.hosts hmake hmake'
  obtain ⟨-, -, -, hcreated₁⟩ := noted_materialize hmake
  obtain ⟨hsources₁, hentries₁', htouched₁', hcreated₁'⟩ := noted_materialize hmake'
  -- its source is affected, so the rebuild touches it
  obtain rfl : hit = true := by
    refine (isAffected_ok_iff hhit).mpr ⟨f.location, .inl ?_, f, ?_, haff⟩
    · rw [hsources]
      exact List.mem_singleton_self _
    · rw [hp.sources]
      exact hback
  obtain ⟨hsources₂, hentries₂', hcreated₂', htouched₂'⟩ := noted_touch htouch'
  -- the edit has created it or touches it
  have hside : c₂.host.Alike e₂.host ∧ c₂.pending.created = c₁.pending.created := by
    have hhosts' := (alike_touch hhosts.symm htouch').symm
    cases created with
    | true =>
      obtain rfl : c₁ = c₂ := (Prod.mk.inj htouch).2
      exact ⟨hhosts', rfl⟩
    | false =>
      obtain ⟨-, -, hcreated₂, -⟩ := noted_touch htouch
      exact ⟨alike_touch hhosts' htouch, hcreated₂⟩
  obtain ⟨hhosts₂, hcreated₂⟩ := hside
  obtain rfl : _ = c' := (Prod.mk.inj hrecord).2
  obtain rfl : _ = e' := (Prod.mk.inj hrecord').2
  refine ⟨hhosts₂, ?_, ?_, ?_, fun k => ?_, fun k => ?_⟩
  · exact hsources₂.trans (hsources₁.trans hp.sources)
  · show _ = e₂.pending.entries.record a.key o.sources
    rw [hentries, hentries₂', hentries₁', hp.entries, hsources]
  · show c₂.pending.created = e₂.pending.created
    rw [hcreated₂, hcreated₁, hcreated₂', hcreated₁', hp.created]
  · rw [hentries, Entries.mem_keys_record, hp.edited]
    exact or_comm.trans (hnoted k).symm
  · show k ∈ (e₂.pending.entries.record a.key o.sources).keys ↔ k ∈ e₂.pending.touched
    rw [Entries.mem_keys_record, hentries₂', hentries₁', hp.rebuilt, htouched₂', htouched₁', or_comm]

/-- The artifacts of one source are brought in by both. -/
theorem Paired.artifacts {ps : List Path} {build : Build} (hl : l.Sound) (hp : Paired s c e)
    (hnamed : List.Forall₂ (NamedBy l f) ps build) (hback : s.resolve? f.location.text = some f)
    (haff : f.path ∈ affected) (hr : (ps.forM (editArtifact l f)).runOn c = (.ok u, c'))
    (hr' : (build.forM (rebuildOutput l ledger affected)).runOn e = (.ok u', e')) :
    Paired s c' e' := by
  induction hnamed generalizing c e with
  | nil =>
    obtain rfl : c = c' := (Prod.mk.inj hr).2
    obtain rfl : e = e' := (Prod.mk.inj hr').2
    exact hp
  | @cons p o ps build hfirst _ ih =>
    obtain ⟨_, c₁, hedit, hedits⟩ := bind_ok_iff.mp
      (show (editArtifact l f p >>= fun _ => ps.forM (editArtifact l f)).runOn c = (.ok u, c') from hr)
    obtain ⟨_, e₁, hout, houts⟩ := bind_ok_iff.mp
      (show (rebuildOutput l ledger affected o >>= fun _ =>
        build.forM (rebuildOutput l ledger affected)).runOn e = (.ok u', e') from hr')
    exact ih (hp.artifact hl hfirst hback haff hedit hout) hedits houts

/-- One source is brought in by both. -/
theorem Paired.source (hl : l.Sound) (hp : Paired s c e)
    (hback : s.resolve? f.location.text = some f) (haff : f.path ∈ affected)
    (hr : (editSource l resolve f).runOn c = (.ok u, c'))
    (hr' : ((outputsOf resolve f (readUnit f c)).forM (rebuildOutput l ledger affected)).runOn e
      = (.ok u', e')) : Paired s c' e' := by
  obtain ⟨ps, c₁, hps, hedits⟩ := bind_ok_iff.mp hr
  obtain ⟨unit, c₂, hunit, hlocations⟩ := bind_ok_iff.mp hps
  rw [runOn_onSources] at hunit
  obtain ⟨hread, rfl⟩ := Prod.mk.inj hunit
  have hreads : readUnit f c = unit := by rw [readUnit, hread]
  rw [hreads] at hr'
  -- reading the source changes only what is kept of the sources
  have hread' : Paired s { c with
      sources := ((SourceSet.unitOf c.host.disk f).runOn c.sources).2 } e :=
    ⟨hp.hosts, hp.sources, hp.entries, hp.created, hp.edited, hp.rebuilt⟩
  cases unit with
  | none =>
    obtain ⟨hnil, rfl⟩ := Prod.mk.inj hlocations
    obtain rfl : [] = ps := Except.ok.inj hnil
    exact hread'.artifacts hl .nil hback haff hedits hr'
  | some unit =>
    obtain ⟨hfound, rfl⟩ := ofExcept_ok_iff.mp hlocations
    exact hread'.artifacts hl (namedBy_locationsOf hfound) hback haff hedits hr'

/-- All sources are brought in by both, one after the other. -/
theorem Paired.run {fs : List TrackedFile} (hl : l.Sound) (hp : Paired s c e)
    (hback : ∀ f ∈ fs, s.resolve? f.location.text = some f ∧ f.path ∈ affected)
    (hr : (fs.forM (editSource l resolve)).runOn c = (.ok u, c'))
    (hr' : (rebuildSteps l ledger affected (readBuild l resolve fs c)).runOn e = (.ok u', e')) :
    Paired s c' e' := by
  induction fs generalizing c e with
  | nil =>
    obtain rfl : c = c' := (Prod.mk.inj hr).2
    obtain rfl : e = e' := (Prod.mk.inj hr').2
    exact hp
  | cons f fs ih =>
    obtain ⟨_, c₁, hedit, hedits⟩ := bind_ok_iff.mp
      (show (editSource l resolve f >>= fun _ => fs.forM (editSource l resolve)).runOn c
        = (.ok u, c') from hr)
    rw [readBuild, hedit] at hr'
    obtain ⟨e₁, hout, houts⟩ := forM_append_ok_iff.mp hr'
    obtain ⟨hback₁, hback'⟩ := List.forall_mem_cons.mp hback
    exact ih (hp.source hl hback₁.1 hback₁.2 hedit hout) hback' hedits houts

end Provenance.Update
