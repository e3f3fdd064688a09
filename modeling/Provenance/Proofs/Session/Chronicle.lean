/-
The journal as a chronicle.

Each call that begins a cycle is one event in the journal, in the order of the calls, and what the
event tells is what came of the call. The cycles are numbered without gaps, and the generation of
the ledger is the number of events that tell of a success and of disposals. It is so over any run
of a session in which other hands leave the journal alone, lines can be added to it, the store
fails only as calls do, and the journal does not lie below the output directory.

A call that does not get as far as its cycle leaves no event. This is the case when one of the
files that it is told of cannot be asked for.
-/
import Provenance.Proofs.JournalContent
import Provenance.Proofs.Session.Sources
import Provenance.Proofs.Session.StartingOver
import Provenance.Proofs.SourceSet.Transparency
import Provenance.Proofs.Update.Tolerance

set_option autoImplicit false

namespace Provenance

open Action Host

/-! ## Events -/

/-- The counts of an event are those of a report. -/
structure Event.Counts (e : Event) (r : Report) : Prop where
  artifacts : e.metadata.get? "artifact_count".toList = some (.int r.artifactCount)
  created : e.metadata.get? "created".toList = some (.ofNat r.created.length)
  touched : e.metadata.get? "touched".toList = some (.ofNat r.touched.length)
  deleted : e.metadata.get? "deleted".toList = some (.ofNat r.sweep.deleted.length)
  failures : e.metadata.get? "sweep_failures".toList = some (.ofNat r.sweep.failures.length)
  failureKeys : e.metadata.get? "sweep_failure_keys".toList
    = some (.ofTexts (r.sweep.failures.map SweepFailure.key))

/-- What an event tells of what came of a cycle. -/
def Event.TellsOf (e : Event) : Except Failure Report → Prop
  | .ok r => e.ok = true ∧ e.errorCode = none ∧ e.Counts r
  | .error f => e.ok = false ∧ e.errorCode = some (Session.errorCode f.cause)

/-- Events tell of cycles one by one; the cycles are numbered from a given number on. -/
def Chronicles (first : Nat) (events : List Event) (results : List (Except Failure Report)) : Prop :=
  List.Forall₂ (fun (en : Event × Nat) r => en.1.cycleId = "cycle-".toList ++ Text.ofNat en.2
    ∧ en.1.TellsOf r) (events.zipIdx first) results

theorem Chronicles.append {first : Nat} {events events' : List Event}
    {results results' : List (Except Failure Report)} (h : Chronicles first events results)
    (h' : Chronicles (first + events.length) events' results') :
    Chronicles first (events ++ events') (results ++ results') := by
  unfold Chronicles
  rw [List.zipIdx_append]
  exact List.rel_append h h'

theorem Chronicles.length_eq {first : Nat} {events : List Event}
    {results : List (Except Failure Report)} (h : Chronicles first events results) :
    events.length = results.length := by
  have hlen := List.Forall₂.length_eq h
  rwa [List.length_zipIdx] at hlen

namespace Session

variable {s s' : Session} {c : Call} {f : Failure} {path : Path} {content : Bytes}

theorem tellsOf_eventOfReport (n : Nat) (r : Report) : (eventOfReport n r).TellsOf (.ok r) :=
  ⟨rfl, rfl, rfl, rfl, rfl, rfl, rfl, rfl⟩

theorem tellsOf_eventOfFailure (operation cycleId timestamp : Text) (n : Nat) (f : Failure) :
    (eventOfFailure operation cycleId timestamp n f).TellsOf (.error f) := ⟨rfl, rfl⟩

/-! ## Writing down -/

/-- An event is written down where lines can be added to the journal, and nothing else changes. -/
theorem writeDown_held (hs : s.Sound) (hjournal : s.project.journal = some path)
    (hheld : Journal.held? s.host.disk path = some content) (e : Event) :
    ∃ s', (writeDown e).runOn s = (.ok (), s') ∧ s'.project = s.project ∧ s'.host.disk.Legal
      ∧ Journal.held? s'.host.disk path = some (content ++ Journal.written e) := by
  have hp := hs.journal path hjournal
  have htakes : s.project.journal.all (s.host.disk.takesText ·) = true := by
    rw [hjournal]
    exact Journal.takesText_of_held? hheld
  obtain ⟨u, s', hw⟩ := (writeDown_ok_iff e s).mpr htakes
  have hlegal := (staysSound_writeDown e).of_run hw hs
  refine ⟨s', hw, project_writeDown hw, hlegal.disk, ?_⟩
  rcases hc : s.host.disk.append path (Utf8.encode (e.line ++ ['\n'])) s.host.clock.now with er | d
  · simp [writeDown_of_error hjournal hc] at hw
  · rw [writeDown_of_ok hjournal hc] at hw
    obtain rfl := (Prod.mk.inj hw).2
    exact Journal.held?_append hs.disk hp hheld hc

/-- What a call has written down of its cycle: one event, which tells of its result. -/
structure WrittenDown (path : Path) (content : Bytes) (n : Nat) (result : Except Failure Report)
    (s' : Session) (e : Event) : Prop where
  cycleId : e.cycleId = "cycle-".toList ++ Text.ofNat n
  tells : e.TellsOf result
  oneLine : '\n' ∉ e.line
  held : Journal.held? s'.host.disk path = some (content ++ Journal.written e)
  legal : s'.host.disk.Legal

/-- A cycle that gives up writes down that it has failed, and with what. -/
theorem giveUp_records (hs : s.Sound) (hjournal : s.project.journal = some path)
    (hheld : Journal.held? s.host.disk path = some content) (operation : Text) (n k : Nat)
    (f : Failure) :
    ∃ s' e, (giveUp operation ("cycle-".toList ++ Text.ofNat n) k f).runOn s = (.error f, s')
      ∧ s'.project = s.project ∧ WrittenDown path content n (.error f) s' e := by
  let read : Session := { s with host := { s.host with clock := s.host.clock.next } }
  obtain ⟨s', hw, hproject, hlegal, hheld'⟩ := writeDown_held (s := read)
    ⟨hs.disk, hs.layout, hs.journal⟩ hjournal hheld
    (eventOfFailure operation ("cycle-".toList ++ Text.ofNat n)
      (Timestamp.ofReading s.host.clock.now) k f)
  refine ⟨s', _, ?_, hproject, rfl, tellsOf_eventOfFailure .., newline_not_mem_eventOfFailure _ _ _ _ _,
    hheld', hlegal⟩
  rw [giveUp_some hjournal, hw]

/-- A cycle that has been reported is written down with its counts. -/
theorem conclude_records (hs : s.Sound) (hjournal : s.project.journal = some path)
    (hheld : Journal.held? s.host.disk path = some content) (operation : Text) (n k : Nat)
    {report : Report} (hid : report.cycleId = "cycle-".toList ++ Text.ofNat n) :
    ∃ s' e, (conclude operation k report).runOn s = (.ok report, s')
      ∧ s'.project = (s.reported operation report).project
      ∧ WrittenDown path content n (.ok report) s' e := by
  obtain ⟨s', hw, hproject, hlegal, hheld'⟩ := writeDown_held (s := s.reported operation report)
    ⟨hs.disk, hs.layout, hs.journal⟩ hjournal hheld (eventOfReport k report)
  refine ⟨s', _, ?_, hproject, hid, tellsOf_eventOfReport .., newline_not_mem_eventOfReport _ _,
    hheld', hlegal⟩
  rw [conclude_eq, hw]

/-! ## Calls -/

/-- The journal lies below the directory of the artifacts. -/
def JournalBelow (l : Update.Layout) (d : Disk) (path : Path) : Prop :=
  match d.place true l.outputRoot, d.place true path with
  | .ok (.present loc _), .ok (.present x _) => loc <+: x
  | _, _ => False

instance (l : Update.Layout) (d : Disk) (path : Path) : Decidable (JournalBelow l d path) := by
  unfold JournalBelow
  split <;> infer_instance

namespace Call

variable {pending : Update.Pending} {d : Disk}

/-- The call does not get as far as its cycle. -/
def Refuses (c : Call) (s : Session) : Prop := ∃ f s', c.Declines s f s'

instance (c : Call) (s : Session) : Decidable (c.Refuses s) :=
  match h : (affectedKeys c.affected).runOn s with
  | (.error f, s') => isTrue ⟨f, s', h⟩
  | (.ok keys, s') => isFalse fun ⟨f, s'', h'⟩ => by
    have := h.symm.trans h'
    simp at this

/-- What has to hold of a call for its cycle to be written down. -/
structure Writes (c : Call) (path : Path) (s : Session) : Prop where
  /-- the store fails only as calls do -/
  onlyIo : s.host.OnlyIo
  /-- the same is true of the search for directories to remove -/
  shallow : ∀ pending s₁ h, c.Pends s pending s₁ →
    s₁.sweepAfter pending ≠ (.error ⟨.deepSearch, []⟩, h)
  /-- the journal does not lie below the output directory -/
  apart : ∀ pending s₁, c.Pends s pending s₁ →
    ¬JournalBelow s.project.layout s₁.host.disk path
  /-- events can be added to the journal, when the call is made and when it is written down -/
  writable : ∀ d, c.Leaves s d → (Journal.held? d path).isSome

/-- The run of a call on some keys keeps apart from the journal and leaves it so that events can be
added to it. -/
def Spares (c : Call) (path : Path) (s : Session) (keys : List Text) : Prop :=
  (Journal.held? s.host.disk path).isSome ∧
    Ends ((underway c.operation (c.steps s.project keys)).runOn s)
      (fun started s₁ => ¬JournalBelow s.project.layout s₁.host.disk path
        ∧ Ends (s₁.sweepAfter started.2) (fun _ h => (Journal.held? h.disk path).isSome)
          fun _ _ => False)
      fun _ s₁ => (Journal.held? s₁.host.disk path).isSome

instance (c : Call) (path : Path) (s : Session) (keys : List Text) : Decidable (c.Spares path s keys) :=
  inferInstanceAs (Decidable (_ ∧ _))

/-- A cycle is written down if the one run that the call has spares the journal. -/
theorem writes_of_spares {keys : List Text} (hk : (affectedKeys c.affected).runOn s = (.ok keys, s))
    (hio : s.host.OnlyIo) (hspares : c.Spares path s keys) : c.Writes path s := by
  obtain ⟨hbefore, hends⟩ := hspares
  have hpends : ∀ pending s₁, c.Pends s pending s₁ →
      ¬JournalBelow s.project.layout s₁.host.disk path
        ∧ Ends (s₁.sweepAfter pending) (fun _ h => (Journal.held? h.disk path).isSome)
          fun _ _ => False := by
    rintro pending s₁ ⟨keys', s'', started, hk', hu⟩
    obtain ⟨rfl, rfl⟩ : keys = keys' ∧ s = s'' := by simpa [hk] using hk'
    rwa [hu] at hends
  refine ⟨hio, fun pending s₁ h hp hr => ?_, fun pending s₁ hp => (hpends _ _ hp).1, fun d hd => ?_⟩
  · have hsweep := (hpends _ _ hp).2
    rwa [hr] at hsweep
  · cases hd with
    | declined => exact hbefore
    | aborted ha =>
      obtain ⟨keys', s'', hk', hu⟩ := ha
      obtain ⟨rfl, rfl⟩ : keys = keys' ∧ s = s'' := by simpa [hk] using hk'
      rwa [hu] at hends
    | @swept pending s₁ hp =>
      have hsweep := (hpends _ _ hp).2
      rcases hr : s₁.sweepAfter pending with ⟨f | swept, h⟩
      · rw [hr] at hsweep
        exact hsweep.elim
      · rwa [hr] at hsweep

/-- The steps of a call that is pending leave a host whose faults are failed calls. -/
theorem Pends.onlyIo (hio : s.host.OnlyIo) (hp : c.Pends s pending s') : s'.host.OnlyIo := by
  obtain ⟨keys, s₁, started, hk, hu⟩ := hp
  obtain ⟨cycle, hsteps, rfl, rfl⟩ := underway_ok hu
  have hkeep := (c.steps_respect s₁.project keys (Update.keptIo _)).of_run hsteps
  apply hkeep
  show s₁.host.OnlyIo
  rw [host_affectedKeys hk]
  exact hio

/-- Up to its publication a call makes nothing but empty things. -/
theorem Pends.fills (hs : s.Sound) (hp : c.Pends s pending s') :
    s.host.disk.tree.Fills s'.host.disk.tree := by
  obtain ⟨keys, s₁, started, hk, hu⟩ := hp
  obtain ⟨cycle, hsteps, rfl, rfl⟩ := underway_ok hu
  have hforks := forks_steps (hs.keys hk) c keys
  rw [hsteps, host_affectedKeys hk] at hforks
  by_cases hsnags : c.Snags s₁ keys
  · obtain ⟨g, cycle', heq, -⟩ := hforks.snagged hsnags
    exact nomatch (Prod.mk.inj heq).1
  · obtain ⟨dirs, files, hbooks⟩ := hforks.clear hsnags
    exact hbooks.stock.grown.fills

/-- A call that aborts has failed in its steps and taken back what it could. What it has made and
could not take back is empty. -/
theorem Aborts.breaks (hs : s.Sound) (hio : s.host.OnlyIo) (ha : c.Aborts s f s') :
    ∃ g cycle lines, c.Breaks s g cycle ∧ f = Update.Cycle.failureOf c.operation lines g
      ∧ s.host.disk.tree.Fills s'.host.disk.tree := by
  obtain ⟨keys, s₁, hk, hu⟩ := ha
  obtain ⟨g, cycle, h', hsteps, rfl, hroll⟩ := underway_error hu
  have hb : c.Breaks s g cycle := ⟨keys, s₁, hk, hsteps⟩
  obtain ⟨extras, dirs, files, hbooks, -⟩ := hb.books hs
  obtain ⟨lines, left, h₁, hrun, hgrown, -⟩ := Update.rollback_grown hbooks (hb.onlyIo hio)
  rcases hroll with ⟨lines', hroll, rfl⟩ | hroll
  · obtain rfl : h₁ = h' := (Prod.mk.inj (hrun.symm.trans hroll)).2
    exact ⟨g, cycle, lines', hb, rfl, hgrown.fills⟩
  · exact nomatch (Prod.mk.inj (hrun.symm.trans hroll)).1

/-- Until its cycle is written down a call leaves what the journal holds as it is. -/
theorem Leaves.eq_of_held? (hs : s.Sound) (hjournal : s.project.journal = some path)
    (hw : c.Writes path s) (h : c.Leaves s d) {content' : Bytes}
    (hheld : Journal.held? s.host.disk path = some content)
    (hafter : Journal.held? d path = some content') : content' = content := by
  have hp := hs.journal path hjournal
  cases h with
  | declined => exact Option.some.inj (hafter.symm.trans hheld)
  | aborted ha =>
    obtain ⟨-, -, -, -, -, hfills⟩ := ha.breaks hs hw.onlyIo
    exact Journal.eq_of_fills hs.disk (hs.aborts ha).disk hp hheld hfills hafter
  | @swept pending s₁ hpends =>
    have hs₁ := hs.pends hpends
    have hthins : Update.Thins s₁.host.disk (s₁.sweepAfter pending).2.disk :=
      Update.thins_sweep hs₁.layout s₁.host
    obtain ⟨hlegal, hspares⟩ := hthins hs₁.disk
    have hstays : ∀ x e, s₁.host.disk.tree.shape x = some e → e.isDirectory = false →
        (s₁.sweepAfter pending).2.disk.tree.shape x = some e
          ∨ e.isFile = true ∧ s₁.project.layout.Exposes pending.entries s₁.host.disk x :=
      fun x e hx he => Update.shape_sweep hs₁.layout hs₁.disk hx he
    refine Journal.eq_of_fills_of_keeps hs.disk hs₁.disk hlegal hp hheld (hpends.fills hs)
      hspares.keeps (fun x target hlink => ?_) (fun x e hpl hfile => ?_) hafter
    · -- a sweep takes no link away
      rcases hstays x _ (Tree.shape_of_find? hlink) rfl with hx | ⟨hfile, -⟩
      · exact Tree.isSome_iff_shape.mpr (by rw [hx]; simp)
      · simp [Entry.timeless, Entry.setTime, Entry.isFile] at hfile
    · -- the file that it would take away lies below the output directory, and the journal does not
      have hshape := Tree.shape_of_find? (Disk.place_present hp.isAbsolute hpl)
      have hdir : e.timeless.isDirectory = false := by
        cases e <;> simp_all [Entry.isFile, Entry.isDirectory, Entry.timeless, Entry.setTime]
      rcases hstays x _ hshape hdir with hx | ⟨-, loc, e', names, hroot, -, rfl, -⟩
      · exact Tree.isSome_iff_shape.mpr (by rw [hx]; simp)
      · rw [hpends.sameLedger.layout] at hroot
        refine absurd ?_ (hw.apart _ _ hpends)
        rw [JournalBelow, hroot, hpl]
        exact List.prefix_append ..

/-- The sweep that follows a publication returns. -/
theorem Pends.sweeps (hs : s.Sound) (hw : c.Writes path s) (hp : c.Pends s pending s') :
    ∃ swept h, s'.sweepAfter pending = (.ok swept, h) := by
  have hrun : Update.SweepRun s'.project.layout pending.entries s'.host (s'.sweepAfter pending) :=
    Update.sweepRun (hs.pends hp).layout (hs.pends hp).disk (hp.onlyIo hw.onlyIo)
  generalize hr : s'.sweepAfter pending = r at hrun
  cases hrun with
  | tripped => exact absurd hr (hw.shallow _ _ _ hp)
  | _ => exact ⟨_, _, rfl⟩

/-- Making out which files are affected counts no cycle. -/
theorem cycles_keys {keys : Except Failure (List Text)}
    (h : (affectedKeys c.affected).runOn s = (keys, s')) : s'.project.cycles = s.project.cycles :=
  (respects_affectedKeys (stepwise_same fun s : Session => s.project.cycles) (fun _ _ => rfl)
    c.affected).of_run h

/-- A call that aborts has counted its cycle, and gives it up by that number. -/
theorem Aborts.run_counted (ha : c.Aborts s f s') :
    s'.project.cycles = s.project.cycles + 1 ∧ ∃ k, c.run.runOn s
      = (giveUp c.operation ("cycle-".toList ++ Text.ofNat (s.project.cycles + 1)) k f).runOn s' := by
  obtain ⟨keys, s₁, hk, hu⟩ := ha
  obtain ⟨g, cycle, h', -, rfl, -⟩ := underway_error hu
  rw [← cycles_keys hk]
  exact ⟨rfl, keys.length, (run_of_keys hk).trans (cycle_of_underway_error hu)⟩

/-- A call that is pending has counted its cycle, and goes on by that number. -/
theorem Pends.run_counted (hp : c.Pends s pending s') :
    s'.project.cycles = s.project.cycles + 1 ∧ ∃ started k, c.run.runOn s
      = match (settle c.operation ("cycle-".toList ++ Text.ofNat (s.project.cycles + 1)) started
          pending).runOn s' with
        | (.ok report, s'') => (conclude c.operation k report).runOn s''
        | (.error f, s'') => (giveUp c.operation
            ("cycle-".toList ++ Text.ofNat (s.project.cycles + 1)) k f).runOn s'' := by
  obtain ⟨keys, s₁, started, hk, hu⟩ := hp
  obtain ⟨cycle, -, -, rfl⟩ := underway_ok hu
  rw [← cycles_keys hk]
  exact ⟨rfl, started, keys.length, (run_of_keys hk).trans (cycle_of_underway_ok hu)⟩

/-- A call that begins a cycle has it written down: it is one event, which tells of the result of the
call and comes after all that the journal held. The ledger is published if the call succeeds, and
else it is not. -/
theorem records (hs : s.Sound) (hjournal : s.project.journal = some path) (hw : c.Writes path s)
    (hbegins : ¬c.Refuses s) :
    ∃ e, WrittenDown path (Journal.held s.host.disk path) (s.project.cycles + 1) (c.run.runOn s).1
        (c.run.runOn s).2 e
      ∧ (c.run.runOn s).2.project.journal = s.project.journal
      ∧ (c.run.runOn s).2.project.cycles = s.project.cycles + 1
      ∧ (c.run.runOn s).2.project.ledger.generation
        = s.project.ledger.generation + [e].countP Event.ok := by
  obtain ⟨content, hheld⟩ := Option.isSome_iff_exists.mp (hw.writable _ .declined)
  rw [Journal.held_of_held? hheld]
  rcases c.outcomes s with ⟨f, s₁, hd⟩ | ⟨f, s₂, ha⟩ | ⟨pending, s₂, hp⟩
  · exact absurd ⟨f, s₁, hd⟩ hbegins
  · -- the event of a failure, after what is left of the steps
    obtain ⟨content', hheld'⟩ := Option.isSome_iff_exists.mp (hw.writable _ (.aborted ha))
    obtain rfl := Leaves.eq_of_held? hs hjournal hw (.aborted ha) hheld hheld'
    obtain ⟨hcycles, k, hrun⟩ := ha.run_counted
    obtain ⟨s', e, hgive, hproject, hrecords⟩ := giveUp_records (hs.aborts ha)
      (ha.sameLedger.2.2.2.trans hjournal) hheld' c.operation (s.project.cycles + 1) k f
    rw [hrun, hgive]
    refine ⟨e, hrecords, ?_, ?_, ?_⟩
    · rw [hproject, ha.sameLedger.2.2.2]
    · rw [hproject, hcycles]
    · rw [hproject, ha.sameLedger.1]
      simp [hrecords.tells.1]
  · -- the event of a report, after the sweep
    have hs₂ := hs.pends hp
    obtain ⟨swept, h, hswept⟩ := hp.sweeps hs hw
    have hleaves : c.Leaves s h.disk := by
      have := Leaves.swept hp
      rwa [hswept] at this
    obtain ⟨content', hheld'⟩ := Option.isSome_iff_exists.mp (hw.writable _ hleaves)
    obtain rfl := hleaves.eq_of_held? hs hjournal hw hheld hheld'
    obtain ⟨hcycles, started, k, hrun⟩ := hp.run_counted
    rw [settle_eq, hswept] at hrun
    dsimp only at hrun
    generalize hreport : reportOf c.operation _ pending swept started h.clock.now
      h.clock.next.now = report at hrun
    generalize hlast : ({ s₂.published pending with
      host := { h with clock := h.clock.next.next } } : Session) = last at hrun
    have hlegal := hleaves.legal hs
    have hsound : last.Sound := by
      rw [← hlast]
      exact ⟨hlegal, hs₂.layout, hs₂.journal⟩
    obtain ⟨s', e, hconclude, hproject, hrecords⟩ := conclude_records hsound
      (by rw [← hlast]; exact hp.sameLedger.2.2.2.trans hjournal) (by rw [← hlast]; exact hheld')
      c.operation (s.project.cycles + 1) k
      (show report.cycleId = _ by rw [← hreport]; rfl)
    rw [hrun, hconclude]
    refine ⟨e, hrecords, ?_, ?_, ?_⟩
    · rw [hproject, ← hlast]
      exact hp.sameLedger.2.2.2
    · rw [hproject, ← hlast]
      exact hcycles
    · rw [hproject, ← hlast]
      simp only [reported, published, Ledger.publish]
      simp [hrecords.tells.1, hp.sameLedger.1]

end Call

/-! ## Runs -/

/-- The results of the calls among some moves, by the answers that were given. -/
def resultsIn (answers : List Answer) : List (Except Failure Report) :=
  answers.filterMap fun
    | .report r => some r
    | _ => none

namespace Move

variable {m : Move}

/-- The move is a call that does not get as far as its cycle. -/
def Refuses (s : Session) : Move → Prop
  | .call c => c.Refuses s
  | _ => False

instance (s : Session) : (m : Move) → Decidable (m.Refuses s)
  | .call c => inferInstanceAs (Decidable (c.Refuses s))
  | .lookup _ | .request _ | .status | .dispose | .meanwhile _ => inferInstanceAs (Decidable False)

/-- The move is a disposal. -/
def isDisposal : Move → Bool
  | .dispose => true
  | _ => false

/-- What has to hold of a move for the journal to be a chronicle: if it begins a cycle that can be
written down, and if it is one of other hands they leave a legal disk and what the journal holds. -/
def Writes (path : Path) (s : Session) : Move → Prop
  | .call c => ¬c.Refuses s → c.Writes path s
  | .meanwhile change => (change s.host).disk.Legal
    ∧ Journal.held (change s.host).disk path = Journal.held s.host.disk path
  | _ => True

end Move

/-- It holds of each of some moves, made one after the other. -/
def Writes (path : Path) (s : Session) : List Move → Prop
  | [] => True
  | m :: ms => m.Writes path s ∧ (m.perform s).2.Writes path ms

/-- One of some moves, made one after the other, is a call that does not get as far as its cycle. -/
def Refuses (s : Session) : List Move → Prop
  | [] => False
  | m :: ms => m.Refuses s ∨ (m.perform s).2.Refuses ms

/-- The results of the calls among some moves that get as far as their cycle. -/
def cycleResults (s : Session) : List Move → List (Except Failure Report)
  | [] => []
  | m :: ms => (if m.Refuses s then [] else resultsIn [(m.perform s).1])
    ++ (m.perform s).2.cycleResults ms

/-- From one session to another the journal has some events more, which tell of some results. -/
structure Chronicled (path : Path) (s s' : Session) (events : List Event)
    (results : List (Except Failure Report)) (disposals : Nat) : Prop where
  sound : s'.Sound
  journal : s'.project.journal = some path
  held : Journal.held s'.host.disk path
    = Journal.held s.host.disk path ++ events.flatMap Journal.written
  oneLine : ∀ e ∈ events, '\n' ∉ e.line
  tells : Chronicles (s.project.cycles + 1) events results
  cycles : s'.project.cycles = s.project.cycles + events.length
  generation : s'.project.ledger.generation
    = s.project.ledger.generation + events.countP Event.ok + disposals

namespace Chronicled

variable {s'' : Session} {events events' : List Event} {results results' : List (Except Failure Report)}
  {k k' : Nat}

theorem trans (h : Chronicled path s s' events results k)
    (h' : Chronicled path s' s'' events' results' k') :
    Chronicled path s s'' (events ++ events') (results ++ results') (k + k') where
  sound := h'.sound
  journal := h'.journal
  held := by rw [h'.held, h.held, List.flatMap_append, List.append_assoc]
  oneLine e he := (List.mem_append.mp he).elim (h.oneLine e) (h'.oneLine e)
  tells := h.tells.append (by
    rw [show s.project.cycles + 1 + events.length = s'.project.cycles + 1 by rw [h.cycles]; omega]
    exact h'.tells)
  cycles := by rw [h'.cycles, h.cycles, List.length_append, Nat.add_assoc]
  generation := by
    rw [h'.generation, h.generation, List.countP_append]
    omega

/-- Nothing is written down of what leaves the project and what the journal holds. -/
theorem silent (hs : s'.Sound) (hjournal : s'.project.journal = some path)
    (hheld : Journal.held s'.host.disk path = Journal.held s.host.disk path)
    (hcycles : s'.project.cycles = s.project.cycles)
    (hgeneration : s'.project.ledger.generation = s.project.ledger.generation + k) :
    Chronicled path s s' [] [] k where
  sound := hs
  journal := hjournal
  held := by rw [hheld, List.flatMap_nil, List.append_nil]
  oneLine := by simp
  tells := .nil
  cycles := hcycles
  generation := hgeneration

end Chronicled

/-- What the journal depends on: all of a session but its sources, its settings and its last update. -/
def standing (s : Session) : Host × Ledger × Option Path × Nat :=
  (s.host, s.project.ledger, s.project.journal, s.project.cycles)

/-- Nothing is written down of what changes nothing but the sources. -/
theorem chronicled_of_standing (hs : s'.Sound) (hjournal : s.project.journal = some path)
    (h : s'.standing = s.standing) : Chronicled path s s' [] [] 0 := by
  simp only [standing, Prod.mk.injEq] at h
  obtain ⟨hhost, hledger, hjournal', hcycles⟩ := h
  exact .silent hs (hjournal'.trans hjournal) (by rw [hhost]) hcycles (by rw [hledger]; rfl)

/-- One call: it is one event, unless it does not get as far as its cycle. -/
theorem Call.chronicled (hs : s.Sound) (hjournal : s.project.journal = some path)
    (hw : ¬c.Refuses s → c.Writes path s) :
    ∃ events, Chronicled path s (c.run.runOn s).2 events
      (if c.Refuses s then [] else [(c.run.runOn s).1]) 0 := by
  have hsound := staysSound_run c s hs
  by_cases hrefuses : c.Refuses s
  · rw [if_pos hrefuses]
    obtain ⟨f, s', hd⟩ := hrefuses
    rw [hd.run_eq] at hsound ⊢
    exact ⟨[], chronicled_of_standing hsound hjournal
      ((respects_affectedKeys (stepwise_same standing) (fun _ _ => rfl) c.affected).of_run hd)⟩
  · rw [if_neg hrefuses]
    obtain ⟨e, hwritten, hjournal', hcycles, hgeneration⟩ :=
      Call.records hs hjournal (hw hrefuses) hrefuses
    refine ⟨[e], hsound, hjournal'.trans hjournal, ?_, ?_, ?_, hcycles, hgeneration⟩
    · rw [Journal.held_of_held? hwritten.held, List.flatMap_singleton]
    · simpa using hwritten.oneLine
    · exact .cons ⟨hwritten.cycleId, hwritten.tells⟩ .nil

/-- One move. -/
theorem Move.chronicled (hs : s.Sound) (hjournal : s.project.journal = some path) {m : Move}
    (hm : m.Writes path s) :
    ∃ events, Chronicled path s (m.perform s).2 events
      (if m.Refuses s then [] else resultsIn [(m.perform s).1]) (if m.isDisposal then 1 else 0) := by
  cases m with
  | call c => exact Call.chronicled hs hjournal hm
  | lookup raw =>
    refine ⟨[], chronicled_of_standing ?_ hjournal ?_⟩
    · exact respects_lookup stepwise_staysSound (fun _ => staysSound_onSources _)
        (fun _ => staysSound_onSources _) raw s hs
    · exact respects_lookup (stepwise_same standing) (fun _ _ => rfl) (fun _ _ => rfl) raw s
  | request r => exact ⟨[], chronicled_of_standing (hs.of_same rfl rfl hs.disk) hjournal rfl⟩
  | status => exact ⟨[], chronicled_of_standing hs hjournal rfl⟩
  | dispose => exact ⟨[], .silent (hs.of_same rfl rfl hs.disk) hjournal rfl rfl rfl⟩
  | meanwhile change => exact ⟨[], .silent (hs.of_same rfl rfl hm.1) hjournal hm.2 rfl rfl⟩

/-- Any number of moves. -/
theorem chronicled_play (hs : s.Sound) (hjournal : s.project.journal = some path) {ms : List Move}
    (hms : s.Writes path ms) :
    ∃ events, Chronicled path s (s.play ms).2 events (s.cycleResults ms)
      (ms.countP Move.isDisposal) := by
  induction ms generalizing s with
  | nil => exact ⟨[], chronicled_of_standing hs hjournal rfl⟩
  | cons m ms ih =>
    obtain ⟨events, hfirst⟩ := Move.chronicled hs hjournal hms.1
    obtain ⟨events', hrest⟩ := ih hfirst.sound hfirst.journal hms.2
    refine ⟨events ++ events', ?_⟩
    rw [List.countP_cons, Nat.add_comm]
    exact hfirst.trans hrest

theorem resultsIn_play_cons (s : Session) (m : Move) (ms : List Move) :
    resultsIn (s.play (m :: ms)).1
      = resultsIn [(m.perform s).1] ++ resultsIn ((m.perform s).2.play ms).1 := by
  rw [play, resultsIn, resultsIn, resultsIn, ← List.filterMap_append, List.singleton_append]

/-- Where every call begins its cycle, the results of the cycles are those of the calls. -/
theorem cycleResults_eq {ms : List Move} (h : ¬s.Refuses ms) :
    s.cycleResults ms = resultsIn (s.play ms).1 := by
  induction ms generalizing s with
  | nil => rfl
  | cons m ms ih =>
    obtain ⟨hm, hms⟩ := not_or.mp h
    rw [cycleResults, if_neg hm, ih hms, resultsIn_play_cons]

theorem length_cycleResults_le (s : Session) (ms : List Move) :
    (s.cycleResults ms).length ≤ (resultsIn (s.play ms).1).length := by
  induction ms generalizing s with
  | nil => exact Nat.le_refl _
  | cons m ms ih =>
    rw [cycleResults, resultsIn_play_cons, List.length_append, List.length_append]
    have hrest := ih (m.perform s).2
    split
    · rw [List.length_nil]
      omega
    · omega

/-- A call that does not begin its cycle leaves a result and no cycle. -/
theorem length_cycleResults_lt {ms : List Move} (h : s.Refuses ms) :
    (s.cycleResults ms).length < (resultsIn (s.play ms).1).length := by
  induction ms generalizing s with
  | nil => exact h.elim
  | cons m ms ih =>
    rw [cycleResults, resultsIn_play_cons, List.length_append, List.length_append]
    have hle := length_cycleResults_le (m.perform s).2 ms
    by_cases hm : m.Refuses s
    · rw [if_pos hm]
      cases m with
      | call c =>
        show 0 + _ < 1 + _
        omega
      | _ => exact hm.elim
    · rw [if_neg hm]
      have hlt := ih (h.resolve_left hm)
      omega

/-- A project that has just been opened has counted no cycle and no publication. -/
theorem counts_openOn {root : Path} {o : Overrides} {h : Host} (hopen : openOn root o h = some s) :
    s.project.cycles = 0 ∧ s.project.ledger.generation = 0 := by
  obtain ⟨p, h', hr, rfl⟩ := openOn_eq_some hopen
  obtain ⟨settings, -, hsetUp⟩ := open_setUp hr
  obtain ⟨sourceRoot, -, rfl, -⟩ := setUp_ok hsetUp
  exact ⟨rfl, rfl⟩

/-- In every run of a project from its opening on, in which the journal can be written and is left
alone, each call that begins a cycle is one line more in the journal, in the order of the calls and
numbered from one on, and the event of the line tells of the result of the call. The generation of the
ledger is the number of successes and disposals. The events are one for each call exactly if every
call begins its cycle. -/
theorem chronicle_iff {root : Path} {o : Overrides} {h : Host} (hd : h.disk.Legal)
    (hroot : root.Spelled) (ho : o.Spelled) (hopen : openOn root o h = some s)
    (hjournal : s.project.journal = some path)
    (hwhole : Journal.Whole (Journal.held s.host.disk path)) {ms : List Move}
    (hms : s.Writes path ms) :
    ∃ events,
      Journal.linesIn (Journal.held (s.play ms).2.host.disk path)
          = Journal.linesIn (Journal.held s.host.disk path) ++ events.map (Utf8.encode ·.line)
        ∧ Chronicles 1 events (s.cycleResults ms)
        ∧ (s.play ms).2.project.ledger.generation
          = events.countP Event.ok + ms.countP Move.isDisposal
        ∧ (Chronicles 1 events (resultsIn (s.play ms).1) ↔ ¬s.Refuses ms) := by
  obtain ⟨events, hrun⟩ := chronicled_play (sound_openOn hd hroot ho hopen) hjournal hms
  obtain ⟨hcycles, hgeneration⟩ := counts_openOn hopen
  have htells := hrun.tells
  rw [hcycles] at htells
  -- a call that does not begin its cycle leaves fewer events than results
  refine ⟨events, ?_, htells, ?_, fun hall hrefuses => ?_, fun hbegin => ?_⟩
  · rw [hrun.held, Journal.linesIn_append_flatMap hwhole hrun.oneLine]
  · rw [hrun.generation, hgeneration, Nat.zero_add]
  · have hlt := length_cycleResults_lt hrefuses
    rw [← htells.length_eq, hall.length_eq] at hlt
    exact Nat.lt_irrefl _ hlt
  · rw [← cycleResults_eq hbegin]
    exact htells

/-- The journal of the small project. -/
def smallJournal : Path := ⟨.root, ["p".toList, ".lightclass".toList, "audit.jsonl".toList]⟩

/-- A build that succeeds, one that fails, and a disposal. -/
def eventful : List Move :=
  [.call (.rebuild smallBuild []), .call (.rebuild Call.tooLong []), .dispose]

/-- A call that is told of no files gets as far as its cycle. -/
theorem Call.not_refuses {build : Build} : ¬(Call.rebuild build []).Refuses s := by
  rintro ⟨f, s', h⟩
  exact nomatch (Prod.mk.inj h).1

/-- In the small project these moves leave two events, one of a success and one of a failure, and the
generation is two. -/
theorem chronicle_small : ∃ s events, small? [] = some s ∧ s.project.journal = some smallJournal
    ∧ Journal.held s.host.disk smallJournal = [] ∧ s.Writes smallJournal eventful
    ∧ Journal.linesIn (Journal.held (s.play eventful).2.host.disk smallJournal)
      = events.map (Utf8.encode ·.line)
    ∧ Chronicles 1 events (resultsIn (s.play eventful).1) ∧ events.length = 2
    ∧ (s.play eventful).2.project.ledger.generation = events.countP Event.ok + 1 := by
  have hrun : ((small? []).map fun s => decide (
      let s₁ := ((Call.rebuild smallBuild []).run.runOn s).2
      s.project.journal = some smallJournal ∧ Journal.held s.host.disk smallJournal = []
      ∧ s.host.faults = [] ∧ (Call.rebuild smallBuild []).Spares smallJournal s []
      ∧ s₁.host.faults = [] ∧ (Call.rebuild Call.tooLong []).Spares smallJournal s₁ []))
      = some true := by
    decide +kernel
  obtain ⟨s, hs, h⟩ := Option.map_eq_some_iff.mp hrun
  obtain ⟨hjournal, hempty, hfaults, hspares, hfaults', hspares'⟩ := of_decide_eq_true h
  have hio : ∀ {h : Host}, h.faults = [] → h.OnlyIo := fun hnone r hr => by simp [hnone] at hr
  have hfirst : (Call.rebuild smallBuild []).Writes smallJournal s :=
    Call.writes_of_spares rfl (hio hfaults) hspares
  have hsecond : (Call.rebuild Call.tooLong []).Writes smallJournal
      ((Call.rebuild smallBuild []).run.runOn s).2 :=
    Call.writes_of_spares rfl (hio hfaults') hspares'
  have hwrites : s.Writes smallJournal eventful :=
    ⟨fun _ => hfirst, fun _ => hsecond, trivial, trivial⟩
  have hbegin : ¬s.Refuses eventful := by
    rintro (hno | hno | hno | hno)
    · exact Call.not_refuses hno
    · exact Call.not_refuses hno
    · exact hno
    · exact hno
  obtain ⟨events, hlines, -, hgeneration, hall⟩ := chronicle_iff
    (legal_idle (by decide +kernel) (by decide +kernel)) (by decide)
    (fun p hp => by simp [Overrides.none] at hp) hs hjournal (.inl hempty) hwrites
  have htells := hall.mpr hbegin
  refine ⟨s, events, hs, hjournal, hempty, hwrites, ?_, htells, htells.length_eq, hgeneration⟩
  rw [hlines, hempty]
  rfl

/-- A rebuild that is told of a source whose name no file can have. -/
def refused : List Move := [.call (.rebuild [] [.spelled SourceSet.longKey])]

/-- That call has a result and leaves no event: it fails before it begins a cycle. -/
theorem not_chronicled_when_refused : ∃ s, small? [] = some s ∧ Reachable s
    ∧ s.project.journal = some smallJournal ∧ s.host.faults = []
    ∧ Journal.held? s.host.disk smallJournal = some [] ∧ s.Writes smallJournal refused
    ∧ ¬∃ events, Journal.linesIn (Journal.held (s.play refused).2.host.disk smallJournal)
        = Journal.linesIn (Journal.held s.host.disk smallJournal) ++ events.map (Utf8.encode ·.line)
      ∧ Chronicles 1 events (resultsIn (s.play refused).1) := by
  have hrun : ((small? []).map fun s => decide (
      s.project.journal = some smallJournal ∧ s.host.faults = []
      ∧ Journal.held? s.host.disk smallJournal = some []
      ∧ (Call.rebuild [] [.spelled SourceSet.longKey]).Refuses s
      ∧ Journal.held (s.play refused).2.host.disk smallJournal = [])) = some true := by
    decide +kernel
  obtain ⟨s, hs, h⟩ := Option.map_eq_some_iff.mp hrun
  obtain ⟨hjournal, hfaults, hheld, hrefuses, hafter⟩ := of_decide_eq_true h
  refine ⟨s, hs, reachable_small (by decide +kernel) (by decide +kernel) hs, hjournal, hfaults, hheld,
    ⟨fun hno => absurd hrefuses hno, trivial⟩, ?_⟩
  rintro ⟨events, hlines, htells⟩
  rw [hafter, Journal.held_of_held? hheld] at hlines
  -- nothing has been added, and there is one result
  have hnone : events = [] := by simpa using hlines
  have hlength := htells.length_eq
  rw [hnone] at hlength
  exact nomatch hlength

end Session

end Provenance
