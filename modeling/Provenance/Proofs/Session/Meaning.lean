/-
What a rebuild means for a session.

A publication after a build runs the steps of a rebuild, publishes what they recorded
and sweeps. Its meaning is told here in terms of the build, of the ledger that was
there before and of the tree before and after, for any ledger whatever; only the tree
has to be without links, and no artifact may be on the way to another one.

The ledger before is asked for the keys of the build alone: an artifact that the build
does not name is not touched, though the ledger may have had an affected source for
it. It is left to the sweep.
-/
import Provenance.Proofs.Session.Publication
import Provenance.Proofs.Update.Rebuild

set_option autoImplicit false

namespace Provenance.Session

open Action Host

variable {s s' : Session} {operation cycleId : Text} {steps : Action Update.Cycle Unit}
  {pending : Update.Pending} {report : Report} {build : Build} {affected : List Text}

/-- Steps that succeed have been run on the host and the sources of the session. -/
theorem runSteps_ok (hr : (runSteps operation steps).runOn s = (.ok pending, s')) :
    ∃ c, steps.runOn ⟨s.host, s.project.sources, .none⟩ = (.ok (), c) ∧ pending = c.pending
      ∧ s' = { host := c.host, project := { s.project with sources := c.sources } } := by
  have hguarded : (runSteps operation steps).runOn s
      = (((Update.Cycle.guarded operation steps).runOn ⟨s.host, s.project.sources, .none⟩).1.map
          fun _ => ((Update.Cycle.guarded operation steps).runOn
            ⟨s.host, s.project.sources, .none⟩).2.pending,
        { host := ((Update.Cycle.guarded operation steps).runOn
            ⟨s.host, s.project.sources, .none⟩).2.host
          project := { s.project with
            sources := ((Update.Cycle.guarded operation steps).runOn
              ⟨s.host, s.project.sources, .none⟩).2.sources } }) := rfl
  rw [hguarded, Update.guarded_eq] at hr
  rcases hsteps : steps.runOn ⟨s.host, s.project.sources, .none⟩ with ⟨g | u, c⟩
  · rw [hsteps] at hr
    dsimp only at hr
    split at hr <;> simp [Except.map] at hr
  · rw [hsteps] at hr
    simp only [Except.map, Prod.mk.injEq, Except.ok.injEq] at hr
    exact ⟨c, rfl, hr.1.symm, hr.2.symm⟩

/-- A publication that returns has run its steps, published what they recorded, and swept. -/
theorem publish_ok (hr : (publish operation cycleId steps).runOn s = (.ok report, s')) :
    ∃ c swept h, steps.runOn ⟨(readClock.runOn s.host).2, s.project.sources, .none⟩ = (.ok (), c)
      ∧ (Update.sweep s.project.layout c.pending.entries).runOn c.host = (.ok swept, h)
      ∧ s'.host.disk = h.disk ∧ s'.project.ledger.entries = c.pending.entries
      ∧ report.created = c.pending.created.map Prod.fst ∧ report.touched = c.pending.touched := by
  obtain ⟨started, s₁, hclock, hrest⟩ := bind_ok_iff.mp hr
  obtain ⟨-, rfl⟩ := Prod.mk.inj hclock
  obtain ⟨pending, s₂, hrun, hsettle⟩ := bind_ok_iff.mp hrest
  obtain ⟨c, hsteps, rfl, rfl⟩ := runSteps_ok hrun
  have heq := settle_eq operation cycleId started c.pending
    { host := c.host, project := { s.project with sources := c.sources } }
  rw [show (settle operation cycleId started c.pending).runOn _ = (.ok report, s') from hsettle] at heq
  rcases hsweep : sweepAfter c.pending
    { host := c.host, project := { s.project with sources := c.sources } } with ⟨f | swept, h⟩
  · rw [hsweep] at heq
    simp at heq
  · rw [hsweep] at heq
    obtain ⟨hreport, rfl⟩ := Prod.mk.inj heq
    obtain rfl := Except.ok.inj hreport
    exact ⟨c, swept, h, hsteps, hsweep, rfl, rfl, rfl, rfl⟩

/-- A rebuild that returns, on a disk without links and of a build no artifact of which is on the way
to another, means what it should, whatever the ledger was before. -/
theorem rebuilt_of_publish (hs : s.Sound) (hfree : s.host.disk.tree.LinkFree)
    (hapart : s.project.layout.Apart build)
    (hr : (publish Update.fullRebuild cycleId
      (Update.rebuildSteps s.project.layout s.project.ledger affected build)).runOn s
        = (.ok report, s')) :
    Update.Rebuilt s.project.layout s.project.ledger s.project.sources affected build
      s.host.disk.tree s'.host.disk.tree s'.project.ledger.entries report.created report.touched := by
  obtain ⟨c, swept, h, hsteps, hsweep, hdisk, hentries, hcreated, htouched⟩ := publish_ok hr
  have hlegal : c.host.disk.Legal :=
    (Update.built_rebuildSteps hs.layout hs.disk hfree rfl hapart hsteps).legal
  have hremains := (Update.leavesBe_sweep hs.layout c.pending.entries).of_run hsweep
  have hafter := (hremains hlegal).2
  rw [hdisk, hentries, hcreated, htouched]
  exact Update.rebuilt_of_steps hs.layout hs.disk hfree rfl hapart hsteps hafter

/-- The small project has no links, and its build one artifact; it is rebuilt as it has to be. -/
theorem rebuilt_of_publish_small : ∃ s report s', small? [] = some s
    ∧ (publish Update.fullRebuild "cycle-1".toList (Update.rebuildSteps s.project.layout
        s.project.ledger ["src/A.kt".toList] smallBuild)).runOn s = (.ok report, s')
    ∧ Update.Rebuilt s.project.layout s.project.ledger s.project.sources ["src/A.kt".toList]
      smallBuild s.host.disk.tree s'.host.disk.tree s'.project.ledger.entries report.created
      report.touched := by
  have hrun : ((small? []).map fun s => decide (
      s.host.disk.tree.entries.all (fun le => !le.2.isLink) = true
        ∧ s.project.layout.keysIn smallBuild = ["bin/kotlin/A.class".toList]
        ∧ Ends ((publish Update.fullRebuild "cycle-1".toList (Update.rebuildSteps s.project.layout
            s.project.ledger ["src/A.kt".toList] smallBuild)).runOn s)
          (fun _ _ => True) (fun _ _ => False))) = some true := by
    decide +kernel
  obtain ⟨s, hs, h⟩ := Option.map_eq_some_iff.mp hrun
  obtain ⟨hentries, hkeys, hend⟩ := of_decide_eq_true h
  have hsound : s.Sound := (reachable_small (by decide +kernel) (by decide +kernel) hs).sound
  have hapart : s.project.layout.Apart smallBuild := by
    intro k hk k' hk' _
    rw [hkeys, List.mem_singleton] at hk hk'
    rw [hk, hk']
  rcases hr : (publish Update.fullRebuild "cycle-1".toList (Update.rebuildSteps s.project.layout
    s.project.ledger ["src/A.kt".toList] smallBuild)).runOn s with ⟨f | report, s'⟩
  · rw [hr] at hend
    exact hend.elim
  · exact ⟨s, report, s', hs, hr,
      rebuilt_of_publish hsound (Tree.linkFree_of_entries hsound.disk.tree.nodes hentries) hapart hr⟩

/-- An artifact that the build does not name any more is not touched, though its source is
affected. -/
theorem not_touched_without_output : ∃ s report s', Reachable s ∧ s.host.disk.tree.LinkFree
    ∧ (publish Update.fullRebuild "cycle-2".toList (Update.rebuildSteps s.project.layout
        s.project.ledger ["src/A.kt".toList] [])).runOn s = (.ok report, s')
    ∧ ∃ key p, p ∈ s.project.ledger.sourcesOf key
      ∧ s.project.sources.Among ["src/A.kt".toList] p ∧ key ∉ report.touched := by
  have hrun : ((small? []).map fun s₀ => decide (
      let s := (Act.call (.rebuild smallBuild [])).perform s₀
      s.host.disk.tree.entries.all (fun le => !le.2.isLink) = true
        ∧ smallSource ∈ s.project.ledger.sourcesOf "bin/kotlin/A.class".toList
        ∧ (s.project.sources.resolve? smallSource.text).map TrackedFile.path = some "src/A.kt".toList
        ∧ Ends ((publish Update.fullRebuild "cycle-2".toList (Update.rebuildSteps s.project.layout
            s.project.ledger ["src/A.kt".toList] [])).runOn s)
          (fun report _ => report.touched = []) (fun _ _ => False))) = some true := by
    decide +kernel
  obtain ⟨s₀, hs, h⟩ := Option.map_eq_some_iff.mp hrun
  obtain ⟨hentries, hsource, hresolve, hend⟩ := of_decide_eq_true h
  have hreach : Reachable ((Act.call (.rebuild smallBuild [])).perform s₀) :=
    .after _ (reachable_small (by decide +kernel) (by decide +kernel) hs) trivial
  have hfree := Tree.linkFree_of_entries hreach.sound.disk.tree.nodes hentries
  generalize (Act.call (.rebuild smallBuild [])).perform s₀ = s at hreach hfree hsource hresolve hend
  rcases hr : (publish Update.fullRebuild "cycle-2".toList (Update.rebuildSteps s.project.layout
    s.project.ledger ["src/A.kt".toList] [])).runOn s with ⟨f | report, s'⟩
  · rw [hr] at hend
    exact hend.elim
  · rw [hr] at hend
    obtain ⟨f, hf, hpath⟩ := Option.map_eq_some_iff.mp hresolve
    refine ⟨s, report, s', hreach, hfree, hr, _, smallSource, hsource, ⟨f, hf, by simp [hpath]⟩, ?_⟩
    rw [show report.touched = [] from hend]
    exact List.not_mem_nil

end Provenance.Session
