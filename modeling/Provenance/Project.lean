/-
Projects.

A project ties everything together: its settings, its sources, the ledger of its
artifacts and the journal. Builds and edits update the ledger, one cycle each;
lookups answer from it. A session is a project on a host.

The order of things in a cycle matters when something fails. The steps come
first; only when all have succeeded are the entries published; the sweep comes
after that, and the journal last. A failed cycle is written down too.
-/
import Provenance.Journal
import Provenance.Settings.File
import Provenance.Timestamp
import Provenance.Update.Edit
import Provenance.Update.FullBuild
import Provenance.Update.Sweep

set_option autoImplicit false

namespace Provenance

/-! ## Projects -/

/-- The state of a project. -/
structure Project where
  settings : Settings
  sources : SourceSet
  ledger : Ledger
  /-- the journal, if cycles are written down -/
  journal : Option Path
  /-- the number of update cycles so far -/
  cycles : Nat
  /-- the label and the time of the last update that was published and reported -/
  last : Option (Text × Text)
  deriving DecidableEq, Repr

/-- Where the artifacts of a project are. -/
def Project.layout (p : Project) : Update.Layout :=
  ⟨p.settings.projectRoot, p.settings.outputRoot, p.settings.output.prune⟩

/-- What is known of the state of a project. -/
structure Status where
  artifactCount : Nat
  sourceCount : Nat
  generation : Nat
  last : Option (Text × Text)
  deriving DecidableEq, Repr

/-- The state of a project in numbers. -/
def Project.status (p : Project) : Status where
  artifactCount := p.ledger.entries.length
  sourceCount := p.ledger.entries.sourceCount
  generation := p.ledger.generation
  last := p.last

/-- Opens the project in a directory: loads its settings, and makes the directory of the journal if
cycles are to be written down. The sources are those below the absolute form of the project root. -/
def Project.open (projectRoot : Path) (o : Overrides) : Action Host Project := do
  let settings ← Action.ofExcept id (Settings.load (← get).disk projectRoot o)
  let root ← Action.ofExcept id ((← get).disk.absolute settings.projectRoot)
  let project : Project :=
    { settings := settings
      sources := .fresh root settings.sources
      ledger := .empty
      journal := if settings.audit then some settings.auditLog else none
      cycles := 0
      last := none }
  if settings.audit then Journal.create settings.auditLog
  return project

/-- A project on a host. -/
structure Session where
  host : Host
  project : Project

namespace Session

/-- An action on the host. -/
def onHost {α : Type} (act : Action Host α) : Action Session α :=
  act.within Session.host fun h s => { s with host := h }

/-- An action on the sources, which looks at the disk. -/
def onSources {α : Type} (act : Disk → Action SourceSet α) : Action Session α := do
  let d := (← get).host.disk
  (act d).within (fun s => s.project.sources) fun sources s =>
    { s with project := { s.project with sources := sources } }

/-- Changes the project. -/
def change (f : Project → Project) : Action Session Unit :=
  modify fun s => { s with project := f s.project }

/-! ## Lookups -/

/-- The units of some recorded locations that are still sources and still there. -/
def unitsAt : List Path → Action Session (List Outline.SourceUnit)
  | [] => return []
  | location :: rest => do
    match (← get).project.sources.resolve? location.text with
    | none => unitsAt rest
    | some f =>
      if ← onSources (SourceSet.trackIfPresent · f) then
        match ← onSources (SourceSet.unitOf · f) with
        | some unit => return unit :: (← unitsAt rest)
        | none => unitsAt rest
      else unitsAt rest

/-- The units that an artifact was made from, the artifact given by any spelling of its path. -/
def lookup (raw : Text) : Action Session (List Outline.SourceUnit) := do
  let p := (← get).project
  match Path.normalizeKey? p.settings.projectRoot raw with
  | none => return []
  | some key => unitsAt (p.ledger.sourcesOf key)

/-! ## Cycles -/

/-- A file that an update is told of: by any spelling of its path, or as a tracked file. -/
inductive Affected where
  | spelled (raw : Text)
  | tracked (f : TrackedFile)
  deriving DecidableEq, Repr

/-- The tracked file that is meant, if it is a source. -/
def Affected.file? (s : SourceSet) : Affected → Option TrackedFile
  | .spelled raw => s.resolve? raw
  | .tracked f => some f

/-- The keys of the affected files, each once. Files that have come into being since the sources
were discovered are tracked from here on. -/
def affectedKeys : List Affected → Action Session (List Text)
  | [] => return []
  | a :: rest => do
    match a.file? (← get).project.sources with
    | none => affectedKeys rest
    | some f =>
      let _ ← onSources (SourceSet.trackIfPresent · f)
      let keys ← affectedKeys rest
      return if keys.contains f.path then keys else f.path :: keys

/-- The code of a failure in the journal. -/
def errorCode : Cause → Text
  | .aborted _ => "UPDATE_ABORTED".toList
  | .artifact _ => "ARTIFACT_PATH_BLOCKED".toList
  | .untracked _ => "UNTRACKED_SOURCE".toList
  | _ => "INTERNAL_ERROR".toList

/-- Writes an event to the journal, if there is one. -/
def writeDown (e : Event) : Action Session Unit := do
  match (← get).project.journal with
  | some path => onHost (Journal.append path e)
  | none => pure ()

/-- Runs the steps of an update on the sources and the host of a session: what is pending when they
have succeeded. -/
def runSteps (operation : Text) (steps : Action Update.Cycle Unit) :
    Action Session Update.Pending := fun s =>
  let (result, c) :=
    (Update.Cycle.guarded operation steps).runOn ⟨s.host, s.project.sources, .none⟩
  (result.map fun _ => c.pending,
    { host := c.host, project := { s.project with sources := c.sources } })

/-- One update: steps, publication, sweep, report. -/
def publish (operation cycleId : Text) (steps : Action Update.Cycle Unit) :
    Action Session Report := do
  let started ← onHost Host.readClock
  let pending ← runSteps operation steps
  change fun p => { p with ledger := p.ledger.publish pending.entries }
  let p := (← get).project
  let swept ← onHost (Update.sweep p.layout p.ledger.entries)
  let ended ← onHost Host.readClock
  let written ← onHost Host.readClock
  return {
    operation := operation
    cycleId := cycleId
    artifactCount := Int.ofNat pending.entries.length
    created := pending.created.map Prod.fst
    touched := pending.touched
    sweep := swept
    durationMs := (ended - started).tdiv 1000000
    timestamp := Timestamp.ofReading written }

/-- The event of a cycle that was reported. -/
def eventOfReport (affectedCount : Nat) (r : Report) : Event where
  timestamp := r.timestamp
  cycleId := r.cycleId
  operation := r.operation
  ok := true
  errorCode := none
  metadata := r.summary ++ [Json.field "affected_count" (.ofNat affectedCount)]

/-- The event of a cycle that failed. -/
def eventOfFailure (operation cycleId timestamp : Text) (affectedCount : Nat) (f : Failure) :
    Event where
  timestamp := timestamp
  cycleId := cycleId
  operation := operation
  ok := false
  errorCode := some (errorCode f.cause)
  metadata := [Json.field "affected_count" (.ofNat affectedCount),
    Json.field "message" (.str f.cause.message)]

/-- One update cycle: it is counted, run and written down. -/
def cycle (operation : Text) (affectedCount : Nat) (steps : Action Update.Cycle Unit) :
    Action Session Report := do
  change fun p => { p with cycles := p.cycles + 1 }
  let cycleId := "cycle-".toList ++ Text.ofNat (← get).project.cycles
  match ← (publish operation cycleId steps).attempt with
  | .ok report => do
    change fun p => { p with last := some (operation, report.timestamp) }
    writeDown (eventOfReport affectedCount report)
    return report
  | .error f => do
    if (← get).project.journal.isSome then
      let now ← onHost Host.readClock
      writeDown (eventOfFailure operation cycleId (Timestamp.ofReading now) affectedCount f)
    throw f

/-- Updates the ledger after a build. -/
def rebuild (build : Build) (affected : List Affected) : Action Session Report := do
  let keys ← affectedKeys affected
  let p := (← get).project
  cycle Update.fullRebuild keys.length (Update.rebuildSteps p.layout p.ledger keys build)

/-- Updates the ledger after an edit. -/
def edit (resolve : Update.Resolver) (affected : List Affected) : Action Session Report := do
  let keys ← affectedKeys affected
  let p := (← get).project
  cycle Update.incrementalEdit keys.length (Update.editSteps p.layout resolve keys)

/-- Forgets everything that has been recorded and tracked. -/
def dispose : Action Session Unit :=
  change fun p =>
    { p with
      ledger := p.ledger.clear
      sources := { p.sources with files := none, units := [] } }

end Session

end Provenance
