/-
Update cycles.

An update works through its artifacts one by one. Meanwhile it holds what it is
going to publish and what it has done to the disk: the entries recorded so far,
the files and directories it has created and the files it has touched. If it
fails, what it created is taken away again, in the reverse order; what cannot be
taken away is named in the failure.

A failed call ends the update as an abort. Any other failure keeps its cause and
gets notes. If taking away itself fails otherwise than by a failed call, that
failure comes in the place of the first.
-/
import Provenance.Ledger
import Provenance.SourceSet.Basic
import Provenance.Store

set_option autoImplicit false

namespace Provenance.Update

/-! ## State -/

/-- What an update has done so far. -/
structure Pending where
  /-- what will be published -/
  entries : Entries
  /-- the artifacts created, with their keys, in order -/
  created : List (Text × Path)
  /-- the directories created, in order -/
  createdDirs : List Path
  /-- the keys of the artifacts touched, in order of the first touch -/
  touched : List Text
  deriving DecidableEq, Repr

/-- Nothing done. -/
def Pending.none : Pending := ⟨[], [], [], []⟩

/-- What an update in progress works on. -/
structure Cycle where
  host : Host
  sources : SourceSet
  pending : Pending

/-- Where the artifacts of a project are. -/
structure Layout where
  projectRoot : Path
  outputRoot : Path
  /-- whether directories left empty are removed -/
  prune : Bool
  deriving DecidableEq, Repr

/-- An artifact: its key and its location. -/
structure ArtifactFile where
  key : Text
  location : Path
  deriving DecidableEq, Repr

/-- The artifact at a location. -/
def Layout.artifact (l : Layout) (location : Path) : Except Cause ArtifactFile :=
  match location.key l.projectRoot with
  | .ok key => .ok ⟨key, location⟩
  | .error e => .error (.outside e)

namespace Cycle

/-- An action on the host. -/
def onHost {α : Type} (act : Action Host α) : Action Cycle α :=
  act.within Cycle.host fun h c => { c with host := h }

/-- An action on the sources, which looks at the disk. -/
def onSources {α : Type} (act : Disk → Action SourceSet α) : Action Cycle α := do
  let d := (← get).host.disk
  (act d).within Cycle.sources fun s c => { c with sources := s }

/-- Changes what the update has done. -/
def note (change : Pending → Pending) : Action Cycle Unit :=
  modify fun c => { c with pending := change c.pending }

/-! ## Steps -/

/-- Makes sure that an artifact exists, with the directories it is in; tells whether it was
created. -/
def materialize (a : ArtifactFile) : Action Cycle Bool := do
  let dirs ← onHost (Store.createDirectories a.location.parent)
  note fun p => { p with createdDirs := p.createdDirs ++ dirs }
  let created ← onHost (Store.createIfAbsent a.location)
  if created then
    note fun p => { p with created := p.created.filter (·.1 ≠ a.key) ++ [(a.key, a.location)] }
  return created

/-- Moves the time of an artifact. -/
def touch (a : ArtifactFile) : Action Cycle Unit := do
  onHost (Store.touch a.location)
  note fun p =>
    { p with touched := if p.touched.contains a.key then p.touched else p.touched ++ [a.key] }

/-- Records sources of an artifact. -/
def record (a : ArtifactFile) (sources : List Path) : Action Cycle Unit :=
  note fun p => { p with entries := p.entries.record a.key sources }

/-! ## Taking back -/

/-- Runs a call on the host; a failed call gives one line that names what it was about. -/
def undo (label : Text) (act : Action Host Unit) : Action Host (List Text) := do
  match ← act.attempt with
  | .ok _ => return []
  | .error f =>
    match f.cause with
    | .io e => return [label ++ ": ".toList ++ e.reason]
    | _ => throw f

/-- Runs undoing calls one after the other and collects their lines. -/
def undoAll : List (Text × Action Host Unit) → Action Host (List Text)
  | [] => return []
  | (label, act) :: rest => do
    let lines ← undo label act
    return lines ++ (← undoAll rest)

/-- Takes away what an update has created: files, then directories, the last ones first. -/
def rollback (p : Pending) : Action Host (List Text) :=
  undoAll
    (p.created.reverse.map (fun a => (a.1, Store.delete a.2))
      ++ p.createdDirs.reverse.map (fun dir => (dir.text, Store.removeDirectory dir)))

/-- The failure that an update of a kind ends with, given its first failure and what could not be
taken away. -/
def failureOf (operation : Text) (lines : List Text) (f : Failure) : Failure :=
  match f.cause with
  | .io e => ⟨.aborted ⟨operation, e.pathText, e.reason, lines⟩, []⟩
  | _ => { f with notes := f.notes ++ lines.map ("rollback: ".toList ++ ·) }

/-- Runs the steps of an update; if they fail, takes away what was created. -/
def guarded (operation : Text) (steps : Action Cycle Unit) : Action Cycle Unit := do
  match ← steps.attempt with
  | .ok _ => pure ()
  | .error f => do
    let lines ← onHost (rollback (← get).pending)
    throw (failureOf operation lines f)

end Cycle

end Provenance.Update
