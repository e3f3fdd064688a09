/-
When a call that raises has published nothing.

Callers take a report to mean that the ledger has been published once more, and a
failure to mean that nothing has been published. Up to the publication a call
keeps the second promise whatever goes wrong. After it there are two things that
can still fail: the sweep, and the line in the journal. `atomic_iff` says that a
call keeps both promises exactly if neither does.

The sweep passes over failed calls, so that only a store that fails in another way
or directories too deep to be looked through can make it fail. The journal passes
over nothing.
-/
import Provenance.Proofs.Session.Reachable

set_option autoImplicit false

namespace Provenance.Session

open Action

variable {s s' : Session} {operation cycleId : Text} {started : Int} {pending : Update.Pending}

/-! ## The last part of a cycle -/

/-- The session in which the entries that were pending are published. -/
def published (pending : Update.Pending) (s : Session) : Session :=
  { s with project := { s.project with ledger := s.project.ledger.publish pending.entries } }

/-- The sweep that follows a publication. -/
def sweepAfter (pending : Update.Pending) (s : Session) : Except Failure SweepResult × Host :=
  (Update.sweep s.project.layout pending.entries).runOn s.host

/-- A settlement succeeds if the sweep does; the clock is read twice more. -/
theorem settle_eq (operation cycleId : Text) (started : Int) (pending : Update.Pending)
    (s : Session) :
    (settle operation cycleId started pending).runOn s
      = match s.sweepAfter pending with
        | (.ok swept, h) =>
          (.ok (reportOf operation cycleId pending swept started h.clock.now h.clock.next.now),
            { s.published pending with host := { h with clock := h.clock.next.next } })
        | (.error f, h) => (.error f, { s.published pending with host := h }) := by
  unfold settle
  rw [runOn_bind, runOn_change]
  dsimp only
  rw [runOn_bind, runOn_get]
  dsimp only
  change (onHost (Update.sweep s.project.layout pending.entries) >>= _).runOn
    (s.published pending) = _
  have honHost := runOn_onHost (Update.sweep s.project.layout pending.entries)
    (s.published pending)
  rw [show (Update.sweep s.project.layout pending.entries).runOn (s.published pending).host
    = s.sweepAfter pending from rfl] at honHost
  rcases hs : s.sweepAfter pending with ⟨f | swept, h⟩
  · rw [hs] at honHost
    exact runOn_bind_error honHost
  · rw [hs] at honHost
    exact runOn_bind_ok honHost

/-- Writing down fails only where no text can be appended to the journal. -/
theorem writeDown_ok_iff (e : Event) (s : Session) :
    (∃ u s', (writeDown e).runOn s = (.ok u, s'))
      ↔ s.project.journal.all (s.host.disk.takesText ·) = true := by
  cases hj : s.project.journal with
  | none => simp [writeDown_none hj]
  | some path =>
    rw [Option.all_some,
      ← Disk.append_ok_iff s.host.disk path (Utf8.encode (e.line ++ ['\n'])) s.host.clock.now]
    rcases hc : s.host.disk.append path (Utf8.encode (e.line ++ ['\n'])) s.host.clock.now with er | d
    · simp [writeDown_of_error hj hc]
    · simp [writeDown_of_ok hj hc]

/-- The session whose last operation is the one that was reported. -/
def reported (operation : Text) (report : Report) (s : Session) : Session :=
  { s with project := { s.project with last := some (operation, report.timestamp) } }

/-- A cycle that has been reported is concluded once it is written down. -/
theorem conclude_eq (operation : Text) (n : Nat) (report : Report) (s : Session) :
    (conclude operation n report).runOn s
      = match (writeDown (eventOfReport n report)).runOn (s.reported operation report) with
        | (.ok _, s') => (.ok report, s')
        | (.error f, s') => (.error f, s') := by
  unfold conclude
  rw [runOn_bind, runOn_change]
  dsimp only
  change (writeDown (eventOfReport n report) >>= _).runOn (s.reported operation report) = _
  rcases hw : (writeDown (eventOfReport n report)).runOn (s.reported operation report)
    with ⟨f | u, s'⟩
  · exact runOn_bind_error hw
  · exact runOn_bind_ok hw

/-! ## What is published -/

namespace Call

variable {c : Call} {s s' : Session} {pending : Update.Pending} {f : Failure}

/-- A call that comes to publish leaves the ledger published, however it ends. -/
theorem Pends.ledger_run (hp : c.Pends s pending s') :
    (c.run.runOn s).2.project.ledger = s.project.ledger.publish pending.entries := by
  obtain ⟨cycleId, started, n, hrun⟩ := hp.run_eq
  rw [hrun, settle_eq, ← hp.sameLedger.1]
  rcases s'.sweepAfter pending with ⟨f | swept, h⟩
  · exact (respects_giveUp c.operation cycleId n f { s'.published pending with host := h }).1
  · dsimp only
    rw [conclude_eq]
    generalize reportOf c.operation cycleId pending swept started h.clock.now
      h.clock.next.now = report
    generalize hlast : reported c.operation report _ = last
    have hkeep := respects_writeDown (eventOfReport n report) last
    have hledger : last.project.ledger = (s'.published pending).project.ledger := by
      rw [← hlast]; rfl
    rcases hw : (writeDown (eventOfReport n report)).runOn last with ⟨f | u, s''⟩
    · rw [hw] at hkeep
      exact hkeep.1.trans hledger
    · rw [hw] at hkeep
      exact hkeep.1.trans hledger

/-- A call that aborts leaves the ledger as it was, and raises. -/
theorem Aborts.run (ha : c.Aborts s f s') :
    ∃ f' s'', c.run.runOn s = (.error f', s'') ∧ SameLedger s s'' := by
  obtain ⟨cycleId, n, hrun⟩ := ha.run_eq
  obtain ⟨f', s'', hgive⟩ := giveUp_fails c.operation cycleId n f s'
  have hkeep := (respects_giveUp c.operation cycleId n f).of_run hgive
  exact ⟨f', s'', hrun.trans hgive, stepwise_sameLedger.trans ha.sameLedger hkeep⟩

/-- A call that returns a report has come to publish, its sweep has succeeded, and the line has been
written down. -/
theorem report_runs {report : Report} (hr : c.run.runOn s = (.ok report, s')) :
    ∃ pending s₁ h cycleId started n, c.Pends s pending s₁
      ∧ s₁.sweepAfter pending = (.ok report.sweep, h)
      ∧ report = reportOf c.operation cycleId pending report.sweep started h.clock.now h.clock.next.now
      ∧ (writeDown (eventOfReport n report)).runOn (({ s₁.published pending with
          host := { h with clock := h.clock.next.next } } : Session).reported c.operation report)
        = (.ok (), s') := by
  rcases c.outcomes s with ⟨f, s₁, hd⟩ | ⟨f, s₁, ha⟩ | ⟨pending, s₁, hp⟩
  · simp [hd.run_eq] at hr
  · obtain ⟨f', s₂, hrun, -⟩ := ha.run
    simp [hrun] at hr
  obtain ⟨cycleId, started, n, hrun⟩ := hp.run_eq
  rw [hr, settle_eq] at hrun
  rcases hs : s₁.sweepAfter pending with ⟨f | swept, h⟩
  · rw [hs] at hrun
    obtain ⟨f', s₂, hgive⟩ := giveUp_fails c.operation cycleId n f
      { s₁.published pending with host := h }
    simp [hgive] at hrun
  rw [hs] at hrun
  dsimp only at hrun
  rw [conclude_eq] at hrun
  generalize hrep : reportOf c.operation cycleId pending swept started h.clock.now
    h.clock.next.now = rep at hrun
  generalize hlast : reported c.operation rep _ = last at hrun
  rcases hw : (writeDown (eventOfReport n rep)).runOn last with ⟨f | u, s₂⟩
  · simp [hw] at hrun
  rw [hw] at hrun
  obtain ⟨hreport, rfl⟩ := Prod.mk.inj hrun
  obtain rfl := Except.ok.inj hreport
  have hsweep : report.sweep = swept := by
    rw [← hrep]
    rfl
  refine ⟨pending, s₁, h, cycleId, started, n, hp, ?_, ?_, ?_⟩
  · rw [hs, hsweep]
  · rw [hsweep, hrep]
  · rw [hlast, hw]

/-- A call that is pending returns if its sweep succeeds and the journal, where there is one, then
takes the line. -/
theorem Pends.returns (hp : c.Pends s pending s') {swept : SweepResult} {h : Host}
    (hsweep : s'.sweepAfter pending = (.ok swept, h))
    (hjournal : s.project.journal.all (h.disk.takesText ·) = true) :
    ∃ report s'' cycleId started n, c.run.runOn s = (.ok report, s'')
      ∧ report = reportOf c.operation cycleId pending swept started h.clock.now h.clock.next.now
      ∧ (writeDown (eventOfReport n report)).runOn (({ s'.published pending with
          host := { h with clock := h.clock.next.next } } : Session).reported c.operation report)
        = (.ok (), s'') := by
  obtain ⟨cycleId, started, n, hrun⟩ := hp.run_eq
  rw [settle_eq, hsweep] at hrun
  dsimp only at hrun
  rw [conclude_eq] at hrun
  generalize hreport : reportOf c.operation cycleId pending swept started h.clock.now
    h.clock.next.now = report at hrun
  generalize hlast : reported c.operation report _ = last at hrun
  have htakes : last.project.journal.all (last.host.disk.takesText ·) = true := by
    rw [← hlast]
    show s'.project.journal.all (h.disk.takesText ·) = true
    rw [hp.sameLedger.2.2.2]
    exact hjournal
  obtain ⟨u, s'', hw⟩ := (writeDown_ok_iff (eventOfReport n report) last).mpr htakes
  rw [hw] at hrun
  exact ⟨report, s'', cycleId, started, n, hrun, hreport.symm, by rw [hlast, hw]⟩

end Call

/-! ## The promise -/

namespace Call

/-- What callers rely on after a call on a session: a report means that the ledger has been
published once more and that the call is the last operation, and a failure means that neither has
changed. -/
def Kept (s : Session) (operation : Text) : Except Failure Report × Session → Prop
  | (.ok report, s') =>
    s'.project.ledger.generation = s.project.ledger.generation + 1
      ∧ s'.project.last = some (operation, report.timestamp)
  | (.error _, s') => s'.project.ledger = s.project.ledger ∧ s'.project.last = s.project.last

instance (s : Session) (operation : Text) :
    (r : Except Failure Report × Session) → Decidable (Kept s operation r)
  | (.ok _, _) => inferInstanceAs (Decidable (_ ∧ _))
  | (.error _, _) => inferInstanceAs (Decidable (_ ∧ _))

/-- A call that keeps what callers rely on. -/
def Atomic (c : Call) (s : Session) : Prop := Kept s c.operation (c.run.runOn s)

instance (c : Call) (s : Session) : Decidable (c.Atomic s) :=
  inferInstanceAs (Decidable (Kept s c.operation (c.run.runOn s)))

variable {c : Call} {s s' : Session} {pending : Update.Pending} {f : Failure}

/-- A call that has published and then fails breaks its promise. -/
theorem Pends.not_atomic (hp : c.Pends s pending s') {s'' : Session}
    (hr : c.run.runOn s = (.error f, s'')) : ¬ c.Atomic s := by
  intro h
  have hledger := hp.ledger_run
  rw [Atomic, hr, Kept] at h
  rw [hr, h.1] at hledger
  have hgen : s.project.ledger.generation = s.project.ledger.generation + 1 :=
    congrArg Ledger.generation hledger
  omega

/-- A call that fails and leaves ledger and last operation as they were keeps its promise. -/
theorem atomic_of_error (hr : c.run.runOn s = (.error f, s')) (hs : SameLedger s s') :
    c.Atomic s := by
  rw [Atomic, hr, Kept]
  exact ⟨hs.1, hs.2.1⟩

/-- A call that comes to publish keeps its promise exactly if the sweep succeeds and the journal,
where there is one, then takes the line that is appended to it. -/
theorem Pends.atomic_iff_sweep (hp : c.Pends s pending s') :
    c.Atomic s ↔ ∃ swept h, s'.sweepAfter pending = (.ok swept, h)
      ∧ s.project.journal.all (h.disk.takesText ·) = true := by
  obtain ⟨cycleId, started, n, hrun⟩ := hp.run_eq
  rcases hs : s'.sweepAfter pending with ⟨f | swept, h⟩
  · -- the sweep fails, and the ledger is published by then
    rw [settle_eq, hs] at hrun
    obtain ⟨f', s'', hgive⟩ := giveUp_fails c.operation cycleId n f
      { s'.published pending with host := h }
    apply iff_of_false (hp.not_atomic (hrun.trans hgive))
    rintro ⟨_, _, heq, -⟩
    simp at heq
  · rw [settle_eq, hs] at hrun
    dsimp only at hrun
    rw [conclude_eq] at hrun
    generalize reportOf c.operation cycleId pending swept started h.clock.now
      h.clock.next.now = report at hrun
    generalize hend : reported c.operation report _ = last at hrun
    have hwrite := writeDown_ok_iff (eventOfReport n report) last
    have hkeep := respects_writeDown (eventOfReport n report) last
    have hdisk : last.host.disk = h.disk := by rw [← hend]; rfl
    have hjournal : last.project.journal = s.project.journal := by
      rw [← hend]; exact hp.sameLedger.2.2.2
    have hlast : last.project.last = some (c.operation, report.timestamp) := by
      rw [← hend]; rfl
    rw [hdisk, hjournal] at hwrite
    rcases hw : (writeDown (eventOfReport n report)).runOn last with ⟨f | u, s''⟩
    · -- the journal does not take the line
      rw [hw] at hrun
      apply iff_of_false (hp.not_atomic hrun)
      rintro ⟨_, _, heq, hall⟩
      obtain ⟨-, rfl⟩ : swept = _ ∧ h = _ := by simpa using heq
      obtain ⟨u, s₁, hok⟩ := hwrite.mpr hall
      simp [hw] at hok
    · rw [hw] at hrun hkeep
      refine iff_of_true ?_ ⟨swept, h, rfl, hwrite.mp ⟨u, s'', hw⟩⟩
      have hledger := hp.ledger_run
      rw [hrun] at hledger
      rw [Atomic, hrun, Kept]
      exact ⟨congrArg Ledger.generation hledger, hkeep.2.1.trans hlast⟩

/-- A call keeps its promise exactly if nothing fails once the ledger is published: neither the sweep
nor the journal. A call that does not get that far always keeps it. The sweep fails only if it
trips. -/
theorem atomic_iff (hs : Reachable s) (c : Call) :
    (c.Atomic s ↔ ∀ pending s', c.Pends s pending s' →
      ∃ swept h, s'.sweepAfter pending = (.ok swept, h)
        ∧ s.project.journal.all (h.disk.takesText ·) = true)
    ∧ ∀ pending s' f h, c.Pends s pending s' → s'.sweepAfter pending = (.error f, h) →
      Update.IsTrip f := by
  refine ⟨⟨fun h pending s' hp => hp.atomic_iff_sweep.mp h, fun h => ?_⟩, fun pending s' f h hp hr => ?_⟩
  · rcases c.outcomes s with ⟨f, s', hd⟩ | ⟨f, s', ha⟩ | ⟨pending, s', hp⟩
    · exact atomic_of_error hd.run_eq hd.sameLedger
    · obtain ⟨f', s'', hrun, hsame⟩ := ha.run
      exact atomic_of_error hrun hsame
    · exact hp.atomic_iff_sweep.mpr (h pending s' hp)
  · exact Update.blames_sweep (fun _ hf => hf) (hs.sound.pends hp).layout.blames_key _ _ _ _ hr

/-- In the small project it is so for a rebuild of its artifact. -/
theorem atomic_small : ∃ s, small? [] = some s
    ∧ ((Call.rebuild smallBuild []).Atomic s ↔ ∀ pending s',
      (Call.rebuild smallBuild []).Pends s pending s' →
        ∃ swept h, s'.sweepAfter pending = (.ok swept, h)
          ∧ s.project.journal.all (h.disk.takesText ·) = true) := by
  obtain ⟨s, hs⟩ := Option.isSome_iff_exists.mp (show (small? []).isSome = true by decide +kernel)
  exact ⟨s, hs, (atomic_iff (reachable_small (by decide +kernel) (by decide +kernel) hs) _).1⟩

/-- What stands in the way of the journal: a directory of its name. -/
def blockedJournal : List (Location × Entry) :=
  [(["p".toList, ".lightclass".toList], .directory 0),
    (["p".toList, ".lightclass".toList, "audit.jsonl".toList], .directory 0)]

/-- A rebuild that has been published raises all the same where its line cannot be written down. -/
theorem not_atomic_on_blocked_journal :
    ∃ s, small? blockedJournal = some s ∧ Reachable s
      ∧ ¬ (Call.rebuild smallBuild []).Atomic s := by
  have hrun : ((small? blockedJournal).map fun s =>
      decide ((Call.rebuild smallBuild []).Atomic s)) = some false := by
    decide +kernel
  obtain ⟨s, hs, hatomic⟩ := Option.map_eq_some_iff.mp hrun
  exact ⟨s, hs, reachable_small (by decide +kernel) (by decide +kernel) hs,
    of_decide_eq_false hatomic⟩

end Call

end Provenance.Session
