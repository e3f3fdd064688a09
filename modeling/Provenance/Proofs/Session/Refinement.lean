/-
An edit and the rebuild that it stands for.

An edit knows the sources that were edited and what they declare, but no build. It should
do what a rebuild would do that is handed the outputs of these sources: one for each
declaration that stands for a class. It does. What is published is the same, what is
created, deleted and refreshed is the same, and below the output directory there are
afterwards the same files and directories.

The two runs differ in what they touch, and so in the times that they leave and in how
often they read the clock; none of it has a bearing on what comes after. The rebuild finds
out for itself that each output has an affected source. For that a source has to be what
its location resolves to.
-/
import Provenance.Proofs.Session.Idempotence
import Provenance.Proofs.Session.Resolution
import Provenance.Proofs.Update.Reading

set_option autoImplicit false

namespace Provenance

open Action Host

/-! ## Disks that are alike -/

namespace Disk

variable {d d' e e' : Disk} {root : Path}

/-- Below a path alike disks have entries of the same kinds. -/
theorem Alike.entryBelow (h : d.Alike d') (hroot : root.isAbsolute = true) (names : List Text) :
    (d.entryBelow root names).map Entry.kind = (d'.entryBelow root names).map Entry.kind := by
  have hplace := place_like true hroot h
  unfold Disk.entryBelow
  generalize d.place true root = x at hplace ⊢
  generalize d'.place true root = y at hplace ⊢
  cases hplace with
  | error er => rfl
  | ok hlike =>
    cases hlike with
    | present hkind => exact find?_kind h _
    | absent dir n => rfl

/-- Alike disks are still alike after a line each in the journal, if there is one. -/
theorem Alike.written {journal : Option Path} (h : d.Alike d')
    (hjournal : ∀ p, journal = some p → p.Straight) (hw : Update.Written journal d e)
    (hw' : Update.Written journal d' e') : e.Alike e' := by
  cases journal with
  | none =>
    obtain rfl : e = d := hw
    obtain rfl : e' = d' := hw'
    exact h
  | some path =>
    obtain ⟨bytes, now, hc⟩ := hw
    obtain ⟨bytes', now', hc'⟩ := hw'
    have hmatch := append_like (hjournal path rfl).isAbsolute h bytes bytes' now now'
    rw [hc, hc'] at hmatch
    cases hmatch with
    | ok halike => exact halike

end Disk

namespace Session

open Update

variable {s s₁ s₂ : Session} {c : Call} {resolve : Resolver} {affected : List Affected} {r r' : Report}
  {keys : List Text} {files : List TrackedFile} {cycle cycle' : Cycle}

/-! ## What an edit is about -/

/-- The tracked files that an update is told of, in the order of their keys, and the state in which
an edit comes to the first of them. -/
def beforeEdit (affected : List Affected) (s : Session) : List TrackedFile × Cycle :=
  match (affectedKeys affected).runOn s with
  | (.ok keys, s₁) =>
    match (Cycle.onSources SourceSet.listed).runOn s₁.atStart with
    | (.ok files, c) => (files.filter fun f => keys.contains f.path, c)
    | (.error _, c) => ([], c)
  | (.error _, s₁) => ([], s₁.atStart)

/-- The tracked files that an update is told of, in the order of their keys. -/
def affectedFiles (affected : List Affected) (s : Session) : List TrackedFile := (s.beforeEdit affected).1

/-- The outputs of the affected files, one for each declaration that stands for a class. Each file is
read when the edit comes to it. -/
def editBuild (resolve : Resolver) (affected : List Affected) (s : Session) : Build :=
  readBuild s.project.layout resolve (s.affectedFiles affected) (s.beforeEdit affected).2

/-- The outputs of the affected files, all files read before the edit has done anything. -/
def declaredBuild (resolve : Resolver) (affected : List Affected) (s : Session) : Build :=
  (s.affectedFiles affected).flatMap fun f => outputsOf resolve f (readUnit f (s.beforeEdit affected).2)

theorem beforeEdit_eq (hkeys : (affectedKeys affected).runOn s = (.ok keys, s₁))
    (hlisted : (Cycle.onSources SourceSet.listed).runOn s₁.atStart = (.ok files, cycle)) :
    s.beforeEdit affected = (files.filter fun f => keys.contains f.path, cycle) := by
  rw [beforeEdit, hkeys]
  dsimp only
  rw [hlisted]

/-- On a disk without links, sources that are not in the way of class files are read as they are before
the edit. -/
theorem editBuild_eq (hs : s.Sound) (hfree : s.host.disk.tree.LinkFree)
    (hclear : ∀ f ∈ s.affectedFiles affected, Undisturbed s.project.layout f) :
    s.editBuild resolve affected = s.declaredBuild resolve affected := by
  rw [editBuild, declaredBuild]
  rw [affectedFiles] at hclear ⊢
  rcases hkeys : (affectedKeys affected).runOn s with ⟨f | keys, s₀⟩
  · have hnone : s.beforeEdit affected = ([], s₀.atStart) := by rw [beforeEdit, hkeys]
    rw [hnone]
    rfl
  rcases hlisted : (Cycle.onSources SourceSet.listed).runOn s₀.atStart with ⟨f | files, cycle⟩
  · have hnone : s.beforeEdit affected = ([], cycle) := by rw [beforeEdit, hkeys]; dsimp only; rw [hlisted]
    rw [hnone]
    rfl
  rw [beforeEdit_eq hkeys hlisted] at hclear ⊢
  have hhost : s₀.host = s.host := host_affectedKeys (c := .edit resolve affected) hkeys
  rw [Cycle.runOn_onSources] at hlisted
  obtain ⟨hfiles, rfl⟩ := Prod.mk.inj hlisted
  obtain ⟨known, hknown, htracked⟩ := SourceSet.listed_ok (Prod.ext hfiles rfl)
  have hdisk : s₀.host.disk = s.host.disk := congrArg Host.disk hhost
  have hlegal : s₀.host.disk.Legal := by rw [hdisk]; exact hs.disk
  have hfree₀ : s₀.host.disk.tree.LinkFree := by rw [hdisk]; exact hfree
  refine readBuild_eq hs.layout ⟨hlegal, hfree₀, hknown, fun f hf => rfl, fun f hf x e hstat => rfl⟩
    hknown hclear (fun g hg f hf hpath => ?_) (List.Subset.refl _)
  -- a tracked file is told by its key
  rw [(htracked f (List.mem_filter.mp hf).1).1, (htracked g (List.mem_filter.mp hg).1).1, hpath]

/-! ## Both calls -/

variable {pending pending' : Pending} {report report' : Report}

/-- When both calls are about to publish, they have brought in the same artifacts. -/
theorem paired_of_pends (hs : s.Sound) (hfaults : s.host.faults = [])
    (hback : ∀ f ∈ s.affectedFiles affected, s.project.sources.resolve? f.location.text = some f)
    (hedit : (Call.edit resolve affected).Pends s pending s₁)
    (hbuild : (Call.rebuild (s.editBuild resolve affected) affected).Pends s pending' s₂) :
    ∃ sources c e, Paired sources c e ∧ pending = c.pending ∧ s₁.host = c.host
      ∧ pending' = e.pending ∧ s₂.host = e.host := by
  obtain ⟨keys, s₀, started, hkeys, hunder⟩ := hedit
  obtain ⟨keys', s₀', started', hkeys', hunder'⟩ := hbuild
  -- both find the same files affected
  obtain ⟨heq, rfl⟩ := Prod.mk.inj (hkeys.symm.trans hkeys')
  obtain rfl := Except.ok.inj heq
  have hlayout : s₀.project.layout = s.project.layout :=
    (Call.sameLedger_keys (c := .edit resolve affected) hkeys).layout
  have hhost : s₀.host = s.host := host_affectedKeys (c := .edit resolve affected) hkeys
  have hrules : SameRules s s₀ := sameRules_keys (c := .edit resolve affected) hkeys
  obtain ⟨c, hsteps, rfl, rfl⟩ := underway_ok hunder
  obtain ⟨e, hsteps', rfl, rfl⟩ := underway_ok hunder'
  obtain ⟨files, cycle, hlisted, hedits⟩ := bind_ok_iff.mp hsteps
  have hbefore : s.beforeEdit affected = _ := beforeEdit_eq hkeys hlisted
  have hbuild : s.editBuild resolve affected
      = readBuild s₀.project.layout resolve (files.filter fun f => keys.contains f.path) cycle := by
    rw [editBuild, affectedFiles, hbefore, hlayout]
  rw [hbuild] at hsteps'
  rw [affectedFiles, hbefore] at hback
  -- both begin on one host, with nothing done
  rw [Cycle.runOn_onSources] at hlisted
  obtain rfl : _ = cycle := (Prod.mk.inj hlisted).2
  have hnone : s₀.begun.host.faults = [] := by
    show s₀.host.faults = []
    rw [hhost, hfaults]
  refine ⟨s₀.project.sources, c, e, ?_, rfl, rfl, rfl, rfl⟩
  refine (paired_none hnone _ _).run (hlayout ▸ hs.layout) (fun f hf => ⟨?_, ?_⟩) hedits hsteps'
  · rw [hrules.resolve?]
    exact hback f hf
  · simpa using (List.mem_filter.mp hf).2

/-- An edit does what the rebuild does that is handed the outputs of its sources. On a disk without
links these are the outputs that the sources have before the edit, provided that none of them is in the
way of class files. -/
theorem edit_refines_rebuild (hs : Reachable s) (hfaults : s.host.faults = [])
    (hback : ∀ f ∈ s.affectedFiles affected, s.project.sources.resolve? f.location.text = some f)
    (hedit : (Call.edit resolve affected).run.runOn s = (.ok r, s₁))
    (hbuild : (Call.rebuild (s.editBuild resolve affected) affected).run.runOn s = (.ok r', s₂)) :
    s₁.project.ledger.entries = s₂.project.ledger.entries
      ∧ r.created = r'.created ∧ r.sweep = r'.sweep ∧ r.refreshed = r'.refreshed
      ∧ (∀ k, k ∈ r.refreshed ↔ k ∈ s₁.project.ledger.entries.keys)
      ∧ (∀ names, (s₁.host.disk.entryBelow s.project.layout.outputRoot names).map Entry.kind
        = (s₂.host.disk.entryBelow s.project.layout.outputRoot names).map Entry.kind)
      ∧ (s.host.disk.tree.LinkFree →
        (∀ f ∈ s.affectedFiles affected, Undisturbed s.project.layout f) →
        s.editBuild resolve affected = s.declaredBuild resolve affected) := by
  have hsound := hs.sound
  obtain ⟨pending, t, h, id, started, n, hpends, hsweep, hreport, hw⟩ := Call.report_runs hedit
  obtain ⟨pending', t', h', id', started', n', hpends', hsweep', hreport', hw'⟩ :=
    Call.report_runs hbuild
  obtain ⟨sources, c, e, hpaired, rfl, hhost, rfl, hhost'⟩ :=
    paired_of_pends hsound hfaults hback hpends hpends'
  have hledger := hpends.sameLedger
  have hledger' := hpends'.sameLedger
  have habs := (hsound.layout.output.straight hsound.layout.root).isAbsolute
  -- the sweep finds hosts that are alike, and the same entries
  rw [sweepAfter, hledger.layout, hhost] at hsweep
  rw [sweepAfter, hledger'.layout, hhost', ← hpaired.entries] at hsweep'
  obtain ⟨hswept, halike⟩ := (lockstep_sweep mirroring_alike habs).ok hpaired.hosts hsweep hsweep'
  have hentries : s₁.project.ledger.entries = c.pending.entries := by rw [project_writeDown hw]; rfl
  have hentries' : s₂.project.ledger.entries = e.pending.entries := by rw [project_writeDown hw']; rfl
  have hcreated : r.created = c.pending.created.map Prod.fst := by rw [hreport]; rfl
  have hcreated' : r'.created = c.pending.created.map Prod.fst := by rw [hreport', hpaired.created]; rfl
  have htouched : r.touched = c.pending.touched := by rw [hreport]; rfl
  have htouched' : r'.touched = e.pending.touched := by rw [hreport']; rfl
  -- either has refreshed what is published
  have hall : ∀ k, k ∈ r.created ++ r.touched ↔ k ∈ c.pending.entries.keys := fun k => by
    rw [hcreated, htouched, List.mem_append, hpaired.edited]
  have hall' : ∀ k, k ∈ r'.created ++ r'.touched ↔ k ∈ c.pending.entries.keys := fun k => by
    rw [hcreated', htouched', List.mem_append, ← hpaired.rebuilt, ← hpaired.entries, hpaired.edited]
    tauto
  refine ⟨?_, hcreated.trans hcreated'.symm, hswept, ?_, fun k => ?_, fun names => ?_,
    editBuild_eq hsound⟩
  · rw [hentries, hentries', hpaired.entries]
  · refine sorted_eq_sorted (nodup_distinct _) (nodup_distinct _) fun k => ?_
    rw [mem_distinct, mem_distinct, hall, hall']
  · rw [Report.refreshed, mem_sorted, mem_distinct, hall, hentries]
  · have hwritten : Written s.project.journal h.disk s₁.host.disk :=
      hledger.2.2.2 ▸ writeDown_ok hw
    have hwritten' : Written s.project.journal h'.disk s₂.host.disk :=
      hledger'.2.2.2 ▸ writeDown_ok hw'
    exact (halike.disk.written hsound.journal hwritten hwritten').entryBelow habs names

/-- The disk of the small project with two classes in its source. The artifact of one of them is
there, and so is one that has no source. -/
def twoClasses : List (Location × Entry) :=
  [(smallSource.names, .file (Utf8.encode "package a\nclass A\nclass B\n".toList) 1),
    (["p".toList, "bin".toList], .directory 0),
    (["p".toList, "bin".toList, "kotlin".toList], .directory 0),
    (["p".toList, "bin".toList, "kotlin".toList, "a".toList], .directory 0),
    (["p".toList, "bin".toList, "kotlin".toList, "a".toList, "A.class".toList], .file [] 2),
    (["p".toList, "bin".toList, "kotlin".toList, "Old.class".toList], .file [] 2)]

/-- The source of the small project, as an update is told of it. -/
def ofSmall : List Affected := [.spelled "src/A.kt".toList]

/-- Declarations are bound to classes of one package. -/
def boundInA : Resolver := fun name => .ok (some ⟨name, some "a".toList⟩)

/-- Of the two artifacts the edit creates one and touches the other, and the rebuild touches both. -/
theorem edit_refines_rebuild_small : ∃ s r s₁ r' s₂, small? twoClasses = some s
    ∧ (Call.edit boundInA ofSmall).run.runOn s = (.ok r, s₁)
    ∧ (Call.rebuild (s.editBuild boundInA ofSmall) ofSmall).run.runOn s = (.ok r', s₂)
    ∧ s.editBuild boundInA ofSmall
      = [⟨"a/A.class".toList, [smallSource]⟩, ⟨"a/B.class".toList, [smallSource]⟩]
    ∧ r.touched = ["bin/kotlin/a/A.class".toList]
    ∧ r'.touched = ["bin/kotlin/a/A.class".toList, "bin/kotlin/a/B.class".toList]
    ∧ r.sweep.deleted = ["bin/kotlin/Old.class".toList]
    ∧ (s₁.project.ledger.entries = s₂.project.ledger.entries
      ∧ r.created = r'.created ∧ r.sweep = r'.sweep ∧ r.refreshed = r'.refreshed
      ∧ (∀ k, k ∈ r.refreshed ↔ k ∈ s₁.project.ledger.entries.keys)
      ∧ (∀ names, (s₁.host.disk.entryBelow s.project.layout.outputRoot names).map Entry.kind
        = (s₂.host.disk.entryBelow s.project.layout.outputRoot names).map Entry.kind))
    ∧ s.editBuild boundInA ofSmall = s.declaredBuild boundInA ofSmall := by
  have hrun : ((small? twoClasses).map fun s => decide (s.host.faults = []
      ∧ s.host.disk.tree.entries.all (fun le => !le.2.isLink) = true
      ∧ s.affectedFiles ofSmall = [⟨"src/A.kt".toList, smallSource⟩]
      ∧ s.project.sources.resolve? smallSource.text = some ⟨"src/A.kt".toList, smallSource⟩
      ∧ s.project.layout.outputRoot = smallRoot.descend ["bin".toList, "kotlin".toList]
      ∧ s.editBuild boundInA ofSmall
        = [⟨"a/A.class".toList, [smallSource]⟩, ⟨"a/B.class".toList, [smallSource]⟩]
      ∧ Ends ((Call.edit boundInA ofSmall).run.runOn s)
        (fun r _ => r.touched = ["bin/kotlin/a/A.class".toList]
          ∧ r.sweep.deleted = ["bin/kotlin/Old.class".toList]) (fun _ _ => False)
      ∧ Ends ((Call.rebuild (s.editBuild boundInA ofSmall) ofSmall).run.runOn s)
        (fun r _ => r.touched = ["bin/kotlin/a/A.class".toList, "bin/kotlin/a/B.class".toList])
        (fun _ _ => False))) = some true := by
    decide +kernel
  obtain ⟨s, hs, h⟩ := Option.map_eq_some_iff.mp hrun
  obtain ⟨hfaults, hentries, hfiles, hback, hroot, houtputs, hedit, hbuild⟩ := of_decide_eq_true h
  have hreach := reachable_small (by decide +kernel) (by decide +kernel) hs
  rcases hr : (Call.edit boundInA ofSmall).run.runOn s with ⟨f | r, s₁⟩
  · rw [hr] at hedit
    exact hedit.elim
  rcases hr' : (Call.rebuild (s.editBuild boundInA ofSmall) ofSmall).run.runOn s with ⟨f | r', s₂⟩
  · rw [hr'] at hbuild
    exact hbuild.elim
  rw [hr] at hedit
  rw [hr'] at hbuild
  obtain ⟨hledger, hcreated, hsweep, hrefreshed, hall, hbelow, hdeclared⟩ :=
    edit_refines_rebuild hreach hfaults (fun f hf => by
      rw [hfiles] at hf
      obtain rfl := List.mem_singleton.mp hf
      exact hback) hr hr'
  refine ⟨s, r, s₁, r', s₂, hs, hr, hr', houtputs, hedit.1, hbuild, hedit.2,
    ⟨hledger, hcreated, hsweep, hrefreshed, hall, hbelow⟩, hdeclared ?_ fun f hf => ?_⟩
  · exact Tree.linkFree_of_entries hreach.sound.disk.tree.nodes hentries
  · rw [hfiles] at hf
    obtain rfl := List.mem_singleton.mp hf
    refine ⟨⟨rfl, by decide⟩, ?_⟩
    refine Layout.elsewhere_of_name (x := ["p".toList, "src".toList]) (n := "A.kt".toList) ?_
      (by decide) (by decide)
    rw [hroot]
    decide

end Session

end Provenance
