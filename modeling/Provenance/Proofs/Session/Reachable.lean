/-
Reachable sessions.

A session is reachable if it comes from opening a project by any number of acts:
calls that bring the ledger up to date, lookups, a disposal, changes of the set of
tracked files, and whatever else happens to the host in between, as long as its
disk stays one. Acts count whether they succeed or fail.

What every reachable session has in common is `Sound`: its disk is legal, its
artifacts go below a straight project root, and its journal has a straight path.
-/
import Provenance.Proofs.Session.Call
import Provenance.Proofs.Settings
import Provenance.Proofs.Update.Cycle
import Provenance.Proofs.Update.Sweep

set_option autoImplicit false

namespace Provenance.Session

open Action Host

/-! ## Sound sessions -/

/-- A session on a legal disk, with all paths where they should be. -/
structure Sound (s : Session) : Prop where
  disk : s.host.disk.Legal
  layout : s.project.layout.Sound
  journal : ∀ p, s.project.journal = some p → p.Straight

variable {s s' : Session} {c : Call} {f : Failure} {pending : Update.Pending}

/-- A session stays sound if its settings and its journal stay the same and its disk stays legal. -/
theorem Sound.of_same (hs : s.Sound) (hsettings : s'.project.settings = s.project.settings)
    (hjournal : s'.project.journal = s.project.journal) (hd : s'.host.disk.Legal) : s'.Sound := by
  refine ⟨hd, ?_, fun p hp => hs.journal p (by rw [← hjournal, hp])⟩
  rw [Project.layout, hsettings]
  exact hs.layout

theorem Sound.of_sameLedger (hs : s.Sound) (h : SameLedger s s') (hd : s'.host.disk.Legal) :
    s'.Sound := hs.of_same h.2.2.1 h.2.2.2 hd

/-! ## Calls -/

/-- Making out which files are affected leaves the host as it is. -/
theorem host_affectedKeys {keys : Except Failure (List Text)}
    (h : (affectedKeys c.affected).runOn s = (keys, s')) : s'.host = s.host :=
  (respects_affectedKeys (stepwise_same Session.host) (fun _ _ => rfl) c.affected).of_run h

theorem Sound.keys (hs : s.Sound) {keys : Except Failure (List Text)}
    (h : (affectedKeys c.affected).runOn s = (keys, s')) : s'.Sound := by
  apply hs.of_sameLedger (Call.sameLedger_keys h)
  rw [host_affectedKeys h]
  exact hs.disk

/-- The steps of a call use the store in no other way than is allowed. -/
theorem Call.steps_respect (c : Call) (p : Project) (keys : List Text) {R : Host → Host → Prop}
    (hK : Update.Kept R p.layout) : Respects (Update.Cycle.OnHosts R) (c.steps p keys) := by
  cases c with
  | rebuild build affected => exact hK.rebuildSteps p.ledger keys build
  | edit resolve affected => exact hK.editSteps resolve keys

/-- The steps of a call leave a legal disk, taken back or not. -/
theorem Sound.runSteps (hs : s.Sound) (operation : Text) (keys : List Text) :
    ((runSteps operation (c.steps s.project keys)).runOn s.begun).2.host.disk.Legal := by
  have hsteps := Update.staysLegal_guarded operation
    (c.steps_respect s.project keys hs.layout.kept)
  exact hsteps ⟨s.begun.host, s.begun.project.sources, .none⟩ hs.disk

theorem Sound.declines (hs : s.Sound) (h : c.Declines s f s') : s'.Sound := hs.keys h

theorem Sound.aborts (hs : s.Sound) (h : c.Aborts s f s') : s'.Sound := by
  have hsame := h.sameLedger
  obtain ⟨keys, s₁, hk, hu⟩ := h
  have hlegal := (hs.keys hk).runSteps (c := c) c.operation keys
  rw [underway_error_iff.mp hu] at hlegal
  exact hs.of_sameLedger hsame hlegal

theorem Sound.pends (hs : s.Sound) (h : c.Pends s pending s') : s'.Sound := by
  have hsame := h.sameLedger
  obtain ⟨keys, s₁, started, hk, hu⟩ := h
  have hlegal := (hs.keys hk).runSteps (c := c) c.operation keys
  rw [(underway_ok_iff.mp hu).2] at hlegal
  exact hs.of_sameLedger hsame hlegal

/-- A sound session stays sound. -/
def StaysSound (s s' : Session) : Prop := s.Sound → s'.Sound

theorem stepwise_staysSound : Stepwise StaysSound :=
  ⟨fun _ hs => hs, fun h h' hs => h' (h hs)⟩

/-- What leaves disks legal leaves sessions sound. -/
theorem staysSound_onHost {α : Type} {act : Action Host α}
    (h : Respects (Across StaysLegal) act) : Respects StaysSound (onHost act) :=
  fun s hs => hs.of_same rfl rfl (h s.host hs.disk)

theorem staysSound_onSources {α : Type} (act : Disk → Action SourceSet α) :
    Respects StaysSound (onSources act) := fun _ hs => hs.of_same rfl rfl hs.disk

theorem staysSound_readClock : Respects StaysSound (onHost Host.readClock) :=
  fun _ hs => ⟨hs.disk, hs.layout, hs.journal⟩

theorem staysSound_change {f : Project → Project} (hsettings : ∀ p, (f p).settings = p.settings)
    (hjournal : ∀ p, (f p).journal = p.journal) : Respects StaysSound (change f) :=
  fun s hs => hs.of_same (hsettings s.project) (hjournal s.project) hs.disk

theorem staysSound_writeDown (e : Event) : Respects StaysSound (writeDown e) := by
  intro s hs
  cases hj : s.project.journal with
  | none => rwa [writeDown_none hj]
  | some path =>
    rw [writeDown_some hj]
    exact staysSound_onHost (staysLegal_append (hs.journal path hj) _) s hs

theorem staysSound_giveUp (operation cycleId : Text) (n : Nat) (f : Failure) :
    Respects StaysSound (giveUp operation cycleId n f) := by
  have hR := stepwise_staysSound
  apply respects_bind hR (respects_get hR)
  intro s
  dsimp only
  split
  · apply respects_bind hR staysSound_readClock
    intro _
    exact respects_bind hR (staysSound_writeDown _) fun _ => respects_throw hR _
  · exact respects_throw hR _

theorem staysSound_conclude (operation : Text) (n : Nat) (report : Report) :
    Respects StaysSound (conclude operation n report) := by
  have hR := stepwise_staysSound
  refine respects_bind hR (staysSound_change (fun _ => rfl) fun _ => rfl) fun _ => ?_
  exact respects_bind hR (staysSound_writeDown _) fun _ => respects_pure hR _

theorem staysSound_settle (operation cycleId : Text) (started : Int) (pending : Update.Pending) :
    Respects StaysSound (settle operation cycleId started pending) := by
  have hR := stepwise_staysSound
  refine respects_bind hR (staysSound_change (fun _ => rfl) fun _ => rfl) fun _ => ?_
  apply respects_bind hR (respects_get hR)
  intro s
  apply respects_bind hR (staysSound_onHost (Update.staysLegal_sweep _ _))
  intro _
  apply respects_bind hR staysSound_readClock
  intro _
  exact respects_bind hR staysSound_readClock fun _ => respects_pure hR _

/-- A call leaves a sound session, however it ends. -/
theorem staysSound_run (c : Call) : Respects StaysSound c.run := by
  intro s hs
  rcases c.outcomes s with ⟨f, s', hd⟩ | ⟨f, s', ha⟩ | ⟨pending, s', hp⟩
  · rw [hd.run_eq]
    exact hs.declines hd
  · obtain ⟨cycleId, n, hrun⟩ := ha.run_eq
    rw [hrun]
    exact staysSound_giveUp _ _ _ _ s' (hs.aborts ha)
  · obtain ⟨cycleId, started, n, hrun⟩ := hp.run_eq
    have hsettle := staysSound_settle c.operation cycleId started pending s' (hs.pends hp)
    rw [hrun]
    rcases hr : (settle c.operation cycleId started pending).runOn s' with ⟨f | report, s''⟩
    · rw [hr] at hsettle
      exact staysSound_giveUp _ _ _ _ s'' hsettle
    · rw [hr] at hsettle
      exact staysSound_conclude _ _ _ s'' hsettle

/-! ## Acts -/

/-- A lookup tracks files and reads their units, and does nothing else. -/
theorem respects_unitsAt {R : Session → Session → Prop} (hR : Stepwise R)
    (htrack : ∀ f, Respects R (onSources (SourceSet.trackIfPresent · f)))
    (hunit : ∀ f, Respects R (onSources (SourceSet.unitOf · f))) (locations : List Path) :
    Respects R (unitsAt locations) := by
  induction locations with
  | nil => exact respects_pure hR _
  | cons location rest ih =>
    apply respects_bind hR (respects_get hR)
    intro s
    split
    · exact ih
    · apply respects_bind hR (htrack _)
      intro present
      split
      · apply respects_bind hR (hunit _)
        intro unit
        cases unit
        · exact ih
        · exact respects_bind hR ih fun _ => respects_pure hR _
      · exact ih

theorem respects_lookup {R : Session → Session → Prop} (hR : Stepwise R)
    (htrack : ∀ f, Respects R (onSources (SourceSet.trackIfPresent · f)))
    (hunit : ∀ f, Respects R (onSources (SourceSet.unitOf · f))) (raw : Text) :
    Respects R (lookup raw) := by
  apply respects_bind hR (respects_get hR)
  intro s
  dsimp only
  split
  · exact respects_pure hR _
  · exact respects_unitsAt hR htrack hunit _

/-- What can happen to a session. -/
inductive Act where
  | call (c : Call)
  | lookup (raw : Text)
  | dispose
  /-- files join or leave the set of tracked files, or their units are kept or forgotten -/
  | retrack (files : Option (List Text)) (units : List (Text × KeptUnit))
  /-- something happens to the host -/
  | meanwhile (h : Host)

/-- The session after an act, however the act ends. -/
def Act.perform (s : Session) : Act → Session
  | .call c => (c.run.runOn s).2
  | .lookup raw => ((Session.lookup raw).runOn s).2
  | .dispose => (Session.dispose.runOn s).2
  | .retrack files units =>
    { s with project :=
      { s.project with sources := { s.project.sources with files := files, units := units } } }
  | .meanwhile h => { s with host := h }

/-- Whatever happens to the host leaves it with a legal disk. -/
def Act.Legal : Act → Prop
  | .meanwhile h => h.disk.Legal
  | _ => True

theorem Sound.perform (hs : s.Sound) {a : Act} (ha : a.Legal) : (a.perform s).Sound := by
  cases a with
  | call c => exact staysSound_run c s hs
  | lookup raw =>
    exact respects_lookup stepwise_staysSound (fun _ => staysSound_onSources _)
      (fun _ => staysSound_onSources _) raw s hs
  | dispose => exact hs.of_same rfl rfl hs.disk
  | retrack files units => exact hs.of_same rfl rfl hs.disk
  | meanwhile h => exact hs.of_same rfl rfl ha

/-! ## Reachable sessions -/

/-- The session in which a project has just been opened, if it can be. -/
def openOn (root : Path) (o : Overrides) (h : Host) : Option Session :=
  match (Project.open root o).runOn h with
  | (.ok p, h') => some ⟨h', p⟩
  | (.error _, _) => none

theorem openOn_eq_some {root : Path} {o : Overrides} {h : Host} (hopen : openOn root o h = some s) :
    ∃ p h', (Project.open root o).runOn h = (.ok p, h') ∧ s = ⟨h', p⟩ := by
  unfold openOn at hopen
  split at hopen
  · rename_i p h' hr
    exact ⟨p, h', hr, (Option.some.inj hopen).symm⟩
  · exact nomatch hopen

/-- A session that a project has come to since it was opened. -/
inductive Reachable : Session → Prop
  | opened {root : Path} {o : Overrides} {h : Host} {s : Session} :
      h.disk.Legal → root.Spelled → o.Spelled → openOn root o h = some s → Reachable s
  | after {s : Session} (a : Act) : Reachable s → a.Legal → Reachable (a.perform s)

/-- A project with some settings that nothing has happened to yet, its sources below a path. -/
def newProject (settings : Settings) (root : Path) : Project where
  settings := settings
  sources := .fresh root settings.sources
  ledger := .empty
  journal := if settings.audit then some settings.auditLog else none
  cycles := 0
  last := none

/-- Sets up a project with settings that have been loaded: with the sources below the absolute form of
its root, and the directory of the journal made if cycles are to be written down. -/
def setUp (settings : Settings) : Action Host Project := do
  let root ← Action.ofExcept id ((← get).disk.absolute settings.projectRoot)
  if settings.audit then Journal.create settings.auditLog
  return newProject settings root

/-- To open a project is to load its settings and to set it up. -/
theorem open_eq (root : Path) (o : Overrides) : Project.open root o = (do
    let settings ← Action.ofExcept id (Settings.load (← get).disk root o)
    setUp settings) := rfl

theorem setUp_eq {settings : Settings} {h : Host} {root : Path}
    (hroot : h.disk.absolute settings.projectRoot = .ok root) :
    (setUp settings).runOn h
      = if settings.audit then (do
          Journal.create settings.auditLog
          return newProject settings root).runOn h
        else (.ok (newProject settings root), h) := by
  unfold setUp
  rw [runOn_bind_ok (runOn_get h), hroot]
  show (do
    if settings.audit then Journal.create settings.auditLog
    return newProject settings root).runOn h = _
  cases settings.audit <;> rfl

theorem setUp_ok {settings : Settings} {h h' : Host} {p : Project}
    (hr : (setUp settings).runOn h = (.ok p, h')) :
    ∃ root, h.disk.absolute settings.projectRoot = .ok root ∧ p = newProject settings root
      ∧ h' = if settings.audit then ((Journal.create settings.auditLog).runOn h).2 else h := by
  obtain ⟨_, _, hget, hr₁⟩ := bind_ok_iff.mp hr
  obtain ⟨rfl, rfl⟩ := get_ok_iff.mp hget
  obtain ⟨root, _, hroot, -⟩ := bind_ok_iff.mp hr₁
  obtain ⟨habsolute, rfl⟩ := ofExcept_ok_iff.mp hroot
  rw [setUp_eq habsolute] at hr
  refine ⟨root, habsolute, ?_⟩
  split at hr
  · rename_i haudit
    obtain ⟨u, _, hcreate, hr₂⟩ := bind_ok_iff.mp hr
    obtain ⟨hp, rfl⟩ := Prod.mk.inj hr₂
    rw [if_pos haudit, hcreate]
    exact ⟨(Except.ok.inj hp).symm, rfl⟩
  · rename_i haudit
    obtain ⟨hp, rfl⟩ := Prod.mk.inj hr
    rw [if_neg haudit]
    exact ⟨(Except.ok.inj hp).symm, rfl⟩

theorem open_setUp {root : Path} {o : Overrides} {h h' : Host} {p : Project}
    (hr : (Project.open root o).runOn h = (.ok p, h')) :
    ∃ settings, Settings.load h.disk root o = .ok settings
      ∧ (setUp settings).runOn h = (.ok p, h') := by
  rw [open_eq] at hr
  obtain ⟨_, _, hget, hr₁⟩ := bind_ok_iff.mp hr
  obtain ⟨rfl, rfl⟩ := get_ok_iff.mp hget
  obtain ⟨settings, _, hset, hr₂⟩ := bind_ok_iff.mp hr₁
  obtain ⟨hload, rfl⟩ := ofExcept_ok_iff.mp hset
  exact ⟨settings, hload, hr₂⟩

/-- A project that can be opened has settings that were loaded, and a journal in its directory of
records or none; opening it makes that directory. -/
theorem open_ok {root : Path} {o : Overrides} {h h' : Host} {p : Project}
    (hr : (Project.open root o).runOn h = (.ok p, h')) :
    Settings.load h.disk root o = .ok p.settings
      ∧ p.ledger = .empty
      ∧ p.journal = (if p.settings.audit then some p.settings.auditLog else none)
      ∧ h' = if p.settings.audit then ((Journal.create p.settings.auditLog).runOn h).2 else h := by
  obtain ⟨settings, hload, hsetUp⟩ := open_setUp hr
  obtain ⟨sourceRoot, -, rfl, hafter⟩ := setUp_ok hsetUp
  exact ⟨hload, rfl, rfl, hafter⟩

/-- The sources of a project that has been opened are those below the absolute form of its root, and
none has been asked for. -/
theorem sources_open {root : Path} {o : Overrides} {h h' : Host} {p : Project}
    (hr : (Project.open root o).runOn h = (.ok p, h')) :
    ∃ sourceRoot, h.disk.absolute p.settings.projectRoot = .ok sourceRoot
      ∧ p.sources = .fresh sourceRoot p.settings.sources := by
  obtain ⟨settings, -, hsetUp⟩ := open_setUp hr
  obtain ⟨sourceRoot, habsolute, rfl, -⟩ := setUp_ok hsetUp
  exact ⟨sourceRoot, habsolute, rfl⟩

/-- A project that has just been opened is a sound session. -/
theorem sound_openOn {root : Path} {o : Overrides} {h : Host} (hd : h.disk.Legal)
    (hroot : root.Spelled) (ho : o.Spelled) (hopen : openOn root o h = some s) : s.Sound := by
  obtain ⟨p, h', hr, rfl⟩ := openOn_eq_some hopen
  obtain ⟨hload, -, hjournal, rfl⟩ := open_ok hr
  obtain ⟨hstraight, hdir, hdata⟩ := Settings.load_ok hd hroot ho hload
  have hlog : p.settings.auditLog.Straight := hdata.child (by decide)
  refine ⟨?_, ⟨hstraight, Settings.outputRoot_below hdir⟩, fun q hq => ?_⟩
  · dsimp only
    split
    · exact staysLegal_makeDirectories hlog.parent h hd
    · exact hd
  · dsimp only at hq
    rw [hjournal] at hq
    split at hq
    · exact Option.some.inj hq ▸ hlog
    · simp at hq

/-- What holds of all reachable sessions. -/
theorem Reachable.sound (h : Reachable s) : s.Sound := by
  induction h with
  | opened hd hroot ho hopen => exact sound_openOn hd hroot ho hopen
  | after a _ ha ih => exact ih.perform ha

/-! ## A small project -/

/-- A host without faults on a disk, whose clock shows how often it has been read. -/
def idle (t : Tree) : Host := ⟨⟨t, [], false⟩, ⟨fun n => n, 0⟩, []⟩

/-- A project with one source, and more entries on its disk. -/
def smallTree (more : List (Location × Entry)) : Tree :=
  .ofEntries ([(["p".toList], .directory 0), (["p".toList, "src".toList], .directory 0),
    (["p".toList, "src".toList, "A.kt".toList], .file [] 0)] ++ more)

/-- The directory of the project. -/
def smallRoot : Path := ⟨.root, ["p".toList]⟩

/-- The source of the project. -/
def smallSource : Path := ⟨.root, ["p".toList, "src".toList, "A.kt".toList]⟩

/-- A build of an artifact from the source. -/
def smallBuild : Build := [⟨"A.class".toList, [smallSource]⟩]

/-- The session that the project begins with. -/
def small? (more : List (Location × Entry)) : Option Session :=
  openOn smallRoot .none (idle (smallTree more))

/-- The disk of an idle host is legal, provided that its tree passes the check. -/
theorem legal_idle {t : Tree} (hroot : t.entry.isDirectory = true) (hcheck : t.checkNodes = true) :
    (idle t).disk.Legal := by
  have ht := Tree.legal_of_check hroot hcheck
  exact ⟨ht, by simp [idle], fun _ => ht.isDirectory_nil⟩

theorem onlyIo_idle (t : Tree) : (idle t).OnlyIo := fun r hr => by simp [idle] at hr

/-- A project that is opened on such a host is reachable. -/
theorem reachable_idle {t : Tree} {o : Overrides} {s : Session} (hroot : t.entry.isDirectory = true)
    (hcheck : t.checkNodes = true) (ho : o.Spelled) (hs : openOn smallRoot o (idle t) = some s) :
    Reachable s := .opened (legal_idle hroot hcheck) (by decide) ho hs

theorem reachable_small {more : List (Location × Entry)} {s : Session}
    (hroot : (smallTree more).entry.isDirectory = true)
    (hcheck : (smallTree more).checkNodes = true) (hs : small? more = some s) : Reachable s :=
  reachable_idle hroot hcheck (fun p hp => by simp [Overrides.none] at hp) hs

end Provenance.Session
