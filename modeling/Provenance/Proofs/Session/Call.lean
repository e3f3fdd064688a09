/-
Calls that bring the ledger up to date.

A session has two of them, one after a build and one after an edit. They differ
in their steps and their label and in nothing else, so that here they are one
call with two forms.

A call first makes out which files are affected. Then comes a cycle, in three
parts: what happens up to the publication (`underway`), the publication with
what follows it on the disk (`settle`), and what is written down at the end.
Everything about calls is proved from the two equations that put a cycle
together from these parts.
-/
import Provenance.Project
import Provenance.Proofs.Update.Cycle

set_option autoImplicit false

namespace Provenance.Session

open Action

/-! ## Running on a part of a session -/

@[simp] theorem runOn_onHost {α : Type} (act : Action Host α) (s : Session) :
    (onHost act).runOn s = ((act.runOn s.host).1, { s with host := (act.runOn s.host).2 }) := rfl

@[simp] theorem runOn_onSources {α : Type} (act : Disk → Action SourceSet α) (s : Session) :
    (onSources act).runOn s
      = (((act s.host.disk).runOn s.project.sources).1,
        { s with project :=
          { s.project with sources := ((act s.host.disk).runOn s.project.sources).2 } }) := rfl

@[simp] theorem runOn_change (f : Project → Project) (s : Session) :
    (change f).runOn s = (.ok (), { s with project := f s.project }) := rfl

/-- The two states differ in their sources and their hosts alone. -/
def SameLedger (s s' : Session) : Prop :=
  s'.project.ledger = s.project.ledger ∧ s'.project.last = s.project.last
    ∧ s'.project.settings = s.project.settings ∧ s'.project.journal = s.project.journal

theorem stepwise_sameLedger : Stepwise SameLedger :=
  ⟨fun _ => ⟨rfl, rfl, rfl, rfl⟩, fun h h' =>
    ⟨h'.1.trans h.1, h'.2.1.trans h.2.1, h'.2.2.1.trans h.2.2.1, h'.2.2.2.trans h.2.2.2⟩⟩

theorem SameLedger.layout {s s' : Session} (h : SameLedger s s') :
    s'.project.layout = s.project.layout := by
  rw [Project.layout, Project.layout, h.2.2.1]

theorem respects_onHost {α : Type} (act : Action Host α) : Respects SameLedger (onHost act) :=
  fun _ => ⟨rfl, rfl, rfl, rfl⟩

theorem respects_onSources {α : Type} (act : Disk → Action SourceSet α) :
    Respects SameLedger (onSources act) :=
  fun _ => ⟨rfl, rfl, rfl, rfl⟩

theorem respects_runSteps (operation : Text) (steps : Action Update.Cycle Unit) :
    Respects SameLedger (runSteps operation steps) :=
  fun _ => ⟨rfl, rfl, rfl, rfl⟩

theorem respects_writeDown (e : Event) : Respects SameLedger (writeDown e) := by
  apply respects_bind stepwise_sameLedger (respects_get stepwise_sameLedger)
  intro s
  cases s.project.journal with
  | none => exact respects_pure stepwise_sameLedger _
  | some path => exact respects_onHost _

section WriteDown

variable {e : Event} {s s' : Session} {path : Path}

/-- Without a journal nothing is written down. -/
theorem writeDown_none (hj : s.project.journal = none) :
    (writeDown e).runOn s = (.ok (), s) := by
  rw [writeDown, runOn_bind, runOn_get]
  dsimp only
  rw [hj]
  rfl

/-- With a journal the event is appended to it. -/
theorem writeDown_some (hj : s.project.journal = some path) :
    (writeDown e).runOn s = (onHost (Journal.append path e)).runOn s := by
  rw [writeDown, runOn_bind, runOn_get]
  dsimp only
  rw [hj]

theorem writeDown_of_ok {d : Disk} (hj : s.project.journal = some path)
    (hc : s.host.disk.append path (Utf8.encode (e.line ++ ['\n'])) s.host.clock.now = .ok d) :
    (writeDown e).runOn s
      = (.ok (), { s with host := { s.host with disk := d, clock := s.host.clock.next } }) := by
  rw [writeDown_some hj, runOn_onHost, Journal.append, Journal.appendText, Host.runOn_call_ok hc]

theorem writeDown_of_error {er : Errno} (hj : s.project.journal = some path)
    (hc : s.host.disk.append path (Utf8.encode (e.line ++ ['\n'])) s.host.clock.now = .error er) :
    (writeDown e).runOn s = (.error ⟨.io (.ofErrno er path), []⟩, s) := by
  rw [writeDown_some hj, runOn_onHost, Journal.append, Journal.appendText, Host.runOn_call_error hc]

/-- What is written down is nothing of the project. -/
theorem project_writeDown {r : Except Failure Unit} (hr : (writeDown e).runOn s = (r, s')) :
    s'.project = s.project := by
  cases hj : s.project.journal with
  | none =>
    rw [writeDown_none hj] at hr
    rw [← (Prod.mk.inj hr).2]
  | some path =>
    rw [writeDown_some hj, runOn_onHost] at hr
    rw [← (Prod.mk.inj hr).2]

end WriteDown

/-- Making out which files are affected disturbs nothing but the set of sources, and that only by
tracking files. -/
theorem respects_affectedKeys {R : Session → Session → Prop} (hR : Stepwise R)
    (htrack : ∀ f, Respects R (onSources (SourceSet.trackIfPresent · f)))
    (affected : List Affected) : Respects R (affectedKeys affected) := by
  induction affected with
  | nil => exact respects_pure hR _
  | cons a rest ih =>
    apply respects_bind hR (respects_get hR)
    intro s
    cases a.file? s.project.sources with
    | none => exact ih
    | some f =>
      apply respects_bind hR (htrack f)
      intro _
      exact respects_bind hR ih fun _ => respects_pure hR _

/-! ## A cycle in three parts -/

/-- What happens in a cycle up to the publication: when it started, and what is to be published. -/
def underway (operation : Text) (steps : Action Update.Cycle Unit) :
    Action Session (Int × Update.Pending) := do
  change fun p => { p with cycles := p.cycles + 1 }
  let started ← onHost Host.readClock
  let pending ← runSteps operation steps
  return (started, pending)

/-- The number that the next cycle is known by. -/
def nextCycle (p : Project) : Text := "cycle-".toList ++ Text.ofNat (p.cycles + 1)

/-- What is reported of a cycle. -/
def reportOf (operation cycleId : Text) (pending : Update.Pending) (swept : SweepResult)
    (started ended written : Int) : Report where
  operation := operation
  cycleId := cycleId
  artifactCount := Int.ofNat pending.entries.length
  created := pending.created.map Prod.fst
  touched := pending.touched
  sweep := swept
  durationMs := (ended - started).tdiv 1000000
  timestamp := Timestamp.ofReading written

/-- The publication of what is pending, and what follows it on the disk. -/
def settle (operation cycleId : Text) (started : Int) (pending : Update.Pending) :
    Action Session Report := do
  change fun p => { p with ledger := p.ledger.publish pending.entries }
  let p := (← get).project
  let swept ← onHost (Update.sweep p.layout p.ledger.entries)
  let ended ← onHost Host.readClock
  let written ← onHost Host.readClock
  return reportOf operation cycleId pending swept started ended written

/-- The end of a cycle that has been reported. -/
def conclude (operation : Text) (affectedCount : Nat) (report : Report) :
    Action Session Report := do
  change fun p => { p with last := some (operation, report.timestamp) }
  writeDown (eventOfReport affectedCount report)
  return report

/-- The end of a cycle that has failed. -/
def giveUp (operation cycleId : Text) (affectedCount : Nat) (f : Failure) :
    Action Session Report := do
  if (← get).project.journal.isSome then
    let now ← onHost Host.readClock
    writeDown (eventOfFailure operation cycleId (Timestamp.ofReading now) affectedCount f)
  throw f

/-- The state that a cycle runs its steps in: the cycle is counted, and the clock has been read. -/
def begun (s : Session) : Session where
  host := (Host.readClock.runOn s.host).2
  project := { s.project with cycles := s.project.cycles + 1 }

/-- The state that the steps of a cycle begin with. -/
def atStart (s : Session) : Update.Cycle := ⟨s.begun.host, s.project.sources, .none⟩

/-- The session after the steps of a cycle, which were run on its host and its sources. -/
def after (c : Update.Cycle) (s : Session) : Session :=
  { host := c.host, project := { s.begun.project with sources := c.sources } }

section Parts

variable {operation : Text} {affectedCount : Nat} {steps : Action Update.Cycle Unit}
  {s s' : Session} {f : Failure} {started : Int} {pending : Update.Pending}

theorem underway_eq (operation : Text) (steps : Action Update.Cycle Unit) (s : Session) :
    (underway operation steps).runOn s
      = match (runSteps operation steps).runOn s.begun with
        | (.ok pending, s') => (.ok (s.host.clock.now, pending), s')
        | (.error f, s') => (.error f, s') := by
  unfold underway
  rw [runOn_bind, runOn_change]
  dsimp only
  rw [runOn_bind, runOn_onHost]
  show ((runSteps operation steps) >>= _).runOn s.begun = _
  rw [runOn_bind]
  rcases (runSteps operation steps).runOn s.begun with ⟨f | pending, s'⟩ <;> rfl

theorem underway_error_iff :
    (underway operation steps).runOn s = (.error f, s')
      ↔ (runSteps operation steps).runOn s.begun = (.error f, s') := by
  rw [underway_eq]
  rcases (runSteps operation steps).runOn s.begun with ⟨g | p, s₁⟩ <;> simp

theorem underway_ok_iff :
    (underway operation steps).runOn s = (.ok (started, pending), s')
      ↔ started = s.host.clock.now
        ∧ (runSteps operation steps).runOn s.begun = (.ok pending, s') := by
  rw [underway_eq]
  rcases (runSteps operation steps).runOn s.begun with ⟨g | p, s₁⟩
  · simp
  · simp only [Prod.mk.injEq, Except.ok.injEq]
    exact ⟨fun h => ⟨h.1.1.symm, h.1.2, h.2⟩, fun h => ⟨⟨h.1.symm, h.2.1⟩, h.2.2⟩⟩

/-- The steps of a cycle are run on its host and its sources, and taken back if they fail. -/
theorem runSteps_eq (operation : Text) (steps : Action Update.Cycle Unit) (s : Session) :
    (runSteps operation steps).runOn s.begun
      = match steps.runOn s.atStart with
        | (.ok _, c) => (.ok c.pending, s.after c)
        | (.error g, c) =>
          match (Update.Cycle.rollback c.pending).runOn c.host with
          | (.ok lines, h) =>
            (.error (Update.Cycle.failureOf operation lines g), s.after { c with host := h })
          | (.error f, h) => (.error f, s.after { c with host := h }) := by
  have hsteps : (runSteps operation steps).runOn s.begun
      = (((Update.Cycle.guarded operation steps).runOn s.atStart).1.map fun _ =>
          ((Update.Cycle.guarded operation steps).runOn s.atStart).2.pending,
        s.after ((Update.Cycle.guarded operation steps).runOn s.atStart).2) := rfl
  rw [hsteps, Update.guarded_eq]
  rcases steps.runOn s.atStart with ⟨g | u, c⟩
  · dsimp only
    rcases (Update.Cycle.rollback c.pending).runOn c.host with ⟨f | lines, h⟩ <;> rfl
  · rfl

/-- The steps of a cycle that has got past them have succeeded. -/
theorem underway_ok (h : (underway operation steps).runOn s = (.ok (started, pending), s')) :
    ∃ c, steps.runOn s.atStart = (.ok (), c) ∧ pending = c.pending ∧ s' = s.after c := by
  have hrun := (underway_ok_iff.mp h).2
  rw [runSteps_eq] at hrun
  rcases hr : steps.runOn s.atStart with ⟨g | u, c⟩
  · rw [hr] at hrun
    dsimp only at hrun
    split at hrun <;> simp at hrun
  · simp only [hr, Prod.mk.injEq, Except.ok.injEq] at hrun
    exact ⟨c, rfl, hrun.1.symm, hrun.2.symm⟩

/-- The steps of a cycle that has failed before its publication have failed, and what they had done
was taken back; if that failed in its turn, its failure is the one that counts. -/
theorem underway_error (h : (underway operation steps).runOn s = (.error f, s')) :
    ∃ g c h', steps.runOn s.atStart = (.error g, c) ∧ s' = s.after { c with host := h' }
      ∧ ((∃ lines, (Update.Cycle.rollback c.pending).runOn c.host = (.ok lines, h')
            ∧ f = Update.Cycle.failureOf operation lines g)
          ∨ (Update.Cycle.rollback c.pending).runOn c.host = (.error f, h')) := by
  have hrun := underway_error_iff.mp h
  rw [runSteps_eq] at hrun
  rcases hr : steps.runOn s.atStart with ⟨g | u, c⟩
  · rw [hr] at hrun
    dsimp only at hrun
    rcases hb : (Update.Cycle.rollback c.pending).runOn c.host with ⟨e | lines, h'⟩
    · simp only [hb, Prod.mk.injEq, Except.error.injEq] at hrun
      obtain ⟨rfl, rfl⟩ := hrun
      exact ⟨g, c, h', rfl, rfl, .inr hb⟩
    · simp only [hb, Prod.mk.injEq, Except.error.injEq] at hrun
      obtain ⟨rfl, rfl⟩ := hrun
      exact ⟨g, c, h', rfl, rfl, .inl ⟨lines, hb, rfl⟩⟩
  · simp [hr] at hrun

/-- A publication is what comes to be pending, and its settlement. -/
theorem publish_eq (operation : Text) (steps : Action Update.Cycle Unit) (s : Session) :
    (publish operation (nextCycle s.project) steps).runOn
        { s with project := { s.project with cycles := s.project.cycles + 1 } }
      = match (runSteps operation steps).runOn s.begun with
        | (.ok pending, s') =>
          (settle operation (nextCycle s.project) s.host.clock.now pending).runOn s'
        | (.error f, s') => (.error f, s') := by
  unfold publish
  rw [runOn_bind, runOn_onHost]
  show ((runSteps operation steps) >>= _).runOn s.begun = _
  rw [runOn_bind]
  rcases (runSteps operation steps).runOn s.begun with ⟨f | pending, s'⟩ <;> rfl

/-- A cycle comes to either of its two ends by way of its publication. -/
theorem cycle_eq (operation : Text) (affectedCount : Nat) (steps : Action Update.Cycle Unit)
    (s : Session) :
    (cycle operation affectedCount steps).runOn s
      = match (publish operation (nextCycle s.project) steps).runOn
          { s with project := { s.project with cycles := s.project.cycles + 1 } } with
        | (.ok report, s') => (conclude operation affectedCount report).runOn s'
        | (.error f, s') =>
          (giveUp operation (nextCycle s.project) affectedCount f).runOn s' := by
  unfold cycle
  rw [runOn_bind, runOn_change]
  dsimp only
  rw [runOn_bind, runOn_get]
  dsimp only
  rcases hr : (publish operation (nextCycle s.project) steps).runOn
    { s with project := { s.project with cycles := s.project.cycles + 1 } } with ⟨f | report, s'⟩
  all_goals
    have hattempt := runOn_attempt (publish operation (nextCycle s.project) steps)
      { s with project := { s.project with cycles := s.project.cycles + 1 } }
    rw [hr] at hattempt
    exact runOn_bind_ok hattempt

/-- A cycle that fails before it has published anything goes on to its end at once. -/
theorem cycle_of_underway_error (h : (underway operation steps).runOn s = (.error f, s')) :
    (cycle operation affectedCount steps).runOn s
      = (giveUp operation (nextCycle s.project) affectedCount f).runOn s' := by
  rw [cycle_eq, publish_eq, underway_error_iff.mp h]

/-- A cycle that has got past its steps publishes, and then comes to either of its ends. -/
theorem cycle_of_underway_ok
    (h : (underway operation steps).runOn s = (.ok (started, pending), s')) :
    (cycle operation affectedCount steps).runOn s
      = match (settle operation (nextCycle s.project) started pending).runOn s' with
        | (.ok report, s'') => (conclude operation affectedCount report).runOn s''
        | (.error f, s'') =>
          (giveUp operation (nextCycle s.project) affectedCount f).runOn s'' := by
  obtain ⟨rfl, hrun⟩ := underway_ok_iff.mp h
  rw [cycle_eq, publish_eq, hrun]

/-- Up to the publication a cycle changes nothing of what is published. -/
theorem respects_underway (operation : Text) (steps : Action Update.Cycle Unit) :
    Respects SameLedger (underway operation steps) := by
  intro s
  have hbegun : SameLedger s s.begun := ⟨rfl, rfl, rfl, rfl⟩
  have hsteps := respects_runSteps operation steps s.begun
  rw [underway_eq]
  rcases hr : (runSteps operation steps).runOn s.begun with ⟨f | p, s'⟩
  · rw [hr] at hsteps
    exact stepwise_sameLedger.trans hbegun hsteps
  · rw [hr] at hsteps
    exact stepwise_sameLedger.trans hbegun hsteps

/-- A cycle that gives up writes that down, if there is a journal, and fails. -/
theorem respects_giveUp (operation cycleId : Text) (affectedCount : Nat) (f : Failure) :
    Respects SameLedger (giveUp operation cycleId affectedCount f) := by
  apply respects_bind stepwise_sameLedger (respects_get stepwise_sameLedger)
  intro s
  dsimp only
  split
  · apply respects_bind stepwise_sameLedger (respects_onHost _)
    intro _
    exact respects_bind stepwise_sameLedger (respects_writeDown _) fun _ =>
      respects_throw stepwise_sameLedger _
  · exact respects_throw stepwise_sameLedger _

/-- Without a journal a cycle that gives up does nothing but fail. -/
theorem giveUp_none {s : Session} (hj : s.project.journal = none) (operation cycleId : Text)
    (affectedCount : Nat) (f : Failure) :
    (giveUp operation cycleId affectedCount f).runOn s = (.error f, s) := by
  rw [giveUp, runOn_bind, runOn_get]
  dsimp only
  rw [hj]
  rfl

/-- With a journal it fails once that is written down, or with what writing it down has failed with. -/
theorem giveUp_some {s : Session} {path : Path} (hj : s.project.journal = some path)
    (operation cycleId : Text) (affectedCount : Nat) (f : Failure) :
    (giveUp operation cycleId affectedCount f).runOn s
      = match (writeDown (eventOfFailure operation cycleId (Timestamp.ofReading s.host.clock.now)
          affectedCount f)).runOn { s with host := { s.host with clock := s.host.clock.next } } with
        | (.ok _, s') => (.error f, s')
        | (.error g, s') => (.error g, s') := by
  rw [giveUp, runOn_bind, runOn_get]
  dsimp only
  rw [hj, Option.isSome_some, if_pos rfl, runOn_bind, runOn_onHost, Host.runOn_readClock]
  dsimp only
  rw [runOn_bind]
  rcases (writeDown _).runOn _ with ⟨g | u, s'⟩ <;> rfl

/-- A cycle that gives up does not return. -/
theorem giveUp_fails (operation cycleId : Text) (affectedCount : Nat) (f : Failure)
    (s : Session) : ∃ f' s', (giveUp operation cycleId affectedCount f).runOn s = (.error f', s') := by
  cases hj : s.project.journal with
  | none => exact ⟨f, s, giveUp_none hj ..⟩
  | some path =>
    rw [giveUp_some hj]
    split <;> exact ⟨_, _, rfl⟩

end Parts

/-! ## Calls -/

/-- A call that brings the ledger up to date. -/
inductive Call where
  /-- after a build -/
  | rebuild (build : Build) (affected : List Affected)
  /-- after an edit; what the affected sources declare is bound to classes by `resolve` -/
  | edit (resolve : Update.Resolver) (affected : List Affected)

namespace Call

/-- The files that the call is told of. -/
def affected : Call → List Affected
  | .rebuild _ affected => affected
  | .edit _ affected => affected

/-- The label of the call. -/
def operation : Call → Text
  | .rebuild _ _ => Update.fullRebuild
  | .edit _ _ => Update.incrementalEdit

/-- The steps of the call, given the keys of the affected files. -/
def steps (p : Project) (keys : List Text) : Call → Action Update.Cycle Unit
  | .rebuild build _ => Update.rebuildSteps p.layout p.ledger keys build
  | .edit resolve _ => Update.editSteps p.layout resolve keys

/-- The call itself. -/
def run : Call → Action Session Report
  | .rebuild build affected => Session.rebuild build affected
  | .edit resolve affected => Session.edit resolve affected

theorem run_eq (c : Call) :
    c.run = affectedKeys c.affected >>= fun keys => get >>= fun s =>
      cycle c.operation keys.length (c.steps s.project keys) := by
  cases c <;> rfl

/-- The call fails before its cycle begins. -/
def Declines (c : Call) (s : Session) (f : Failure) (s' : Session) : Prop :=
  (affectedKeys c.affected).runOn s = (.error f, s')

/-- The cycle of the call fails before the publication. -/
def Aborts (c : Call) (s : Session) (f : Failure) (s' : Session) : Prop :=
  ∃ keys s₁, (affectedKeys c.affected).runOn s = (.ok keys, s₁)
    ∧ (underway c.operation (c.steps s₁.project keys)).runOn s₁ = (.error f, s')

/-- The cycle of the call has succeeded with all its steps, and is about to publish. -/
def Pends (c : Call) (s : Session) (pending : Update.Pending) (s' : Session) : Prop :=
  ∃ keys s₁ started, (affectedKeys c.affected).runOn s = (.ok keys, s₁)
    ∧ (underway c.operation (c.steps s₁.project keys)).runOn s₁ = (.ok (started, pending), s')

section

variable {c : Call} {s s' : Session}

/-- Every call declines, aborts or comes to be pending. -/
theorem outcomes (c : Call) (s : Session) :
    (∃ f s', c.Declines s f s') ∨ (∃ f s', c.Aborts s f s') ∨ ∃ pending s', c.Pends s pending s' := by
  rcases hk : (affectedKeys c.affected).runOn s with ⟨f | keys, s₁⟩
  · exact .inl ⟨f, s₁, hk⟩
  · rcases hu : (underway c.operation (c.steps s₁.project keys)).runOn s₁ with ⟨f | ⟨started, pending⟩, s₂⟩
    · exact .inr (.inl ⟨f, s₂, keys, s₁, hk, hu⟩)
    · exact .inr (.inr ⟨pending, s₂, keys, s₁, started, hk, hu⟩)

theorem sameLedger_keys {keys : Except Failure (List Text)}
    (h : (affectedKeys c.affected).runOn s = (keys, s')) : SameLedger s s' :=
  (respects_affectedKeys stepwise_sameLedger (fun _ => respects_onSources _) c.affected).of_run h

theorem Declines.sameLedger {f : Failure} (h : c.Declines s f s') : SameLedger s s' :=
  sameLedger_keys h

theorem Aborts.sameLedger {f : Failure} (h : c.Aborts s f s') : SameLedger s s' := by
  obtain ⟨keys, s₁, hk, hu⟩ := h
  have hr := (respects_underway c.operation (c.steps s₁.project keys)).of_run hu
  exact stepwise_sameLedger.trans (sameLedger_keys hk) hr

theorem Pends.sameLedger {pending : Update.Pending} (h : c.Pends s pending s') :
    SameLedger s s' := by
  obtain ⟨keys, s₁, started, hk, hu⟩ := h
  have hr := (respects_underway c.operation (c.steps s₁.project keys)).of_run hu
  exact stepwise_sameLedger.trans (sameLedger_keys hk) hr

theorem Declines.run_eq {f : Failure} (h : c.Declines s f s') : c.run.runOn s = (.error f, s') := by
  rw [c.run_eq]
  exact runOn_bind_error h

/-- A call that knows which files are affected is a cycle. -/
theorem run_of_keys {keys : List Text} (h : (affectedKeys c.affected).runOn s = (.ok keys, s')) :
    c.run.runOn s = (cycle c.operation keys.length (c.steps s'.project keys)).runOn s' := by
  rw [c.run_eq, runOn_bind_ok h]
  exact runOn_bind_ok (runOn_get s')

/-- What a call that aborts does after that. -/
theorem Aborts.run_eq {f : Failure} (h : c.Aborts s f s') :
    ∃ cycleId n, c.run.runOn s = (giveUp c.operation cycleId n f).runOn s' := by
  obtain ⟨keys, s₁, hk, hu⟩ := h
  refine ⟨nextCycle s₁.project, keys.length, ?_⟩
  rw [run_of_keys hk, cycle_of_underway_error hu]

/-- What a call that is pending does after that. -/
theorem Pends.run_eq {pending : Update.Pending} (h : c.Pends s pending s') :
    ∃ cycleId started n, c.run.runOn s
      = match (settle c.operation cycleId started pending).runOn s' with
        | (.ok report, s'') => (conclude c.operation n report).runOn s''
        | (.error f, s'') => (giveUp c.operation cycleId n f).runOn s'' := by
  obtain ⟨keys, s₁, started, hk, hu⟩ := h
  refine ⟨nextCycle s₁.project, started, keys.length, ?_⟩
  rw [run_of_keys hk, cycle_of_underway_ok hu]

end

end Call

end Provenance.Session
