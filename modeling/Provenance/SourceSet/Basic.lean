/-
The set of tracked sources.

The tracked files of a project are discovered when they are first asked for.
From then on the set is kept: files join and leave it as the host reports them,
and only a reset makes it be discovered anew.

A file's unit is kept together with the size and the time that the file had when
it was read. As long as both are the same the unit is taken to be that of the
file. Text that an editor has not saved yet is put in the same place, with the
size and the time of the file as it is on disk, so that it counts until the file
changes.

A disk is only looked at here, never changed.
-/
import Provenance.SourceSet.Discovery
import Provenance.Outline.Language

set_option autoImplicit false

namespace Provenance

/-- A source file: its key, and where it is. -/
structure TrackedFile where
  path : Text
  location : Path
  deriving DecidableEq, Repr

/-- A unit with the size and the time of the file it was read from; both are -1 if there was no
file. -/
structure KeptUnit where
  size : Int
  time : Int
  unit : Outline.SourceUnit
  deriving DecidableEq, Repr

/-- The tracked sources of a project and the units kept for them. -/
structure SourceSet where
  root : Path
  rules : SourceSettings
  /-- the tracked keys; nothing before they have been discovered -/
  files : Option (List Text)
  units : List (Text × KeptUnit)
  deriving DecidableEq, Repr

namespace SourceSet

/-- The sources of a project before anything has been asked. -/
def fresh (root : Path) (rules : SourceSettings) : SourceSet := ⟨root, rules, none, []⟩

/-! ## Identity -/

/-- The tracked file with a key. -/
def trackedFile (s : SourceSet) (key : Text) : TrackedFile := ⟨key, s.root.join (.ofText key)⟩

/-- The tracked file that a spelling of a path denotes; nothing if it does not denote a source. No
question is put to the disk, so a file that has been deleted is found too. -/
def resolve? (s : SourceSet) (raw : Text) : Option TrackedFile :=
  match Path.normalizeKey? s.root raw with
  | some key => if s.rules.isSource key then some (s.trackedFile key) else none
  | none => none

/-! ## Kept units -/

/-- The unit kept for a key. -/
def kept? (s : SourceSet) (key : Text) : Option KeptUnit := s.units.lookup key

/-- The set with no unit kept for a key. -/
def forget (s : SourceSet) (key : Text) : SourceSet :=
  { s with units := s.units.filter fun ku => ku.1 ≠ key }

/-- The set with a unit kept for a key. -/
def keep (s : SourceSet) (key : Text) (k : KeptUnit) : SourceSet :=
  { s with units := (key, k) :: (s.forget key).units }

/-! ## The set -/

/-- The tracked keys, discovered if they have not been yet. -/
def known (d : Disk) : Action SourceSet (List Text) := do
  let s ← get
  match s.files with
  | some keys => return keys
  | none => do
    let keys ← Action.ofExcept id (discover d s.root s.rules)
    set { s with files := some keys }
    return keys

/-- The tracked files, in the order of their keys. -/
def listed (d : Disk) : Action SourceSet (List TrackedFile) := do
  let keys ← known d
  return (sorted keys).map (← get).trackedFile

/-- Whether a file is tracked. -/
def tracks (d : Disk) (f : TrackedFile) : Action SourceSet Bool := do
  return (← known d).contains f.path

/-- Adds a key that is not tracked. -/
def join (key : Text) : Action SourceSet Unit :=
  modify fun s => { s with files := s.files.map (· ++ [key]) }

/-- Starts to track a file. -/
def add (d : Disk) (f : TrackedFile) : Action SourceSet Unit := do
  if ← tracks d f then Action.fail (.tracking (.alreadyTracked f.path))
  else if !(← get).rules.isSource f.path then Action.fail (.tracking (.notSource f.path))
  else join f.path

/-- Stops tracking a file, and keeps no unit for it. -/
def remove (d : Disk) (f : TrackedFile) : Action SourceSet Unit := do
  if !(← tracks d f) then Action.fail (.tracking (.notTracked f.path))
  else modify fun s =>
    { s.forget f.path with files := s.files.map fun keys => keys.filter (· ≠ f.path) }

/-- Starts to track a file if it is a source that is there; tells whether the file is tracked
then. -/
def trackIfPresent (d : Disk) (f : TrackedFile) : Action SourceSet Bool := do
  if ← tracks d f then return true
  if !(← get).rules.isSource f.path then return false
  let present ← Action.ofExcept (fun e => .io (.ofErrno e f.location)) (d.hasFile f.location)
  if present then join f.path
  return present

/-- Forgets which files are tracked and what was read of them. -/
def reset : Action SourceSet Unit := modify fun s => { s with files := none, units := [] }

/-! ## Units -/

/-- The text of a source file: flaws in the encoding are shown as replacement characters, and every
line break is a line feed. -/
def textOf (content : Bytes) : Text := (Utf8.decodeLossy content).unifyBreaks

/-- Reads the unit of a path and its text. -/
def parseText (path text : Text) : Action SourceSet Outline.SourceUnit :=
  Action.ofExcept Cause.contract (Outline.parseUnit path text)

/-- The unit of a tracked file; nothing if the file is not tracked or not there. -/
def unitOf (d : Disk) (f : TrackedFile) : Action SourceSet (Option Outline.SourceUnit) := do
  if !(← tracks d f) then return none
  match d.stat f.location with
  | .error .notFound => do
    modify (·.forget f.path)
    return none
  | .error e => Action.fail (.io (.ofErrno e f.location))
  | .ok (_, entry) =>
    match ((← get).kept? f.path).filter fun k => k.size = Int.ofNat entry.size ∧ k.time = entry.time with
    | some k => return some k.unit
    | none => do
      let content ← Action.ofExcept (fun e => .io (.ofErrno e f.location)) (d.read f.location)
      let unit ← parseText f.path (textOf content)
      modify (·.keep f.path ⟨Int.ofNat entry.size, entry.time, unit⟩)
      return some unit

/-- The size and the time of a file; both are -1 if it is not there. -/
def sizeAndTime (d : Disk) (f : TrackedFile) : Action SourceSet (Int × Int) :=
  match d.stat f.location with
  | .ok (_, entry) => pure (Int.ofNat entry.size, entry.time)
  | .error .notFound => pure (-1, -1)
  | .error e => Action.fail (.io (.ofErrno e f.location))

/-- The unit of a tracked file whose text is that of an editor. If the unit that is kept was read
from the same text, it stays. -/
def commit (d : Disk) (f : TrackedFile) (text : Text) : Action SourceSet Outline.SourceUnit := do
  if !(← tracks d f) then Action.fail (.tracking (.notTracked f.path))
  else
    let text := text.unifyBreaks
    match ((← get).kept? f.path).filter fun k => k.unit.digest = Digest.ofText text with
    | some k => return k.unit
    | none => do
      let unit ← parseText f.path text
      let (size, time) ← sizeAndTime d f
      modify (·.keep f.path ⟨size, time, unit⟩)
      return unit

end SourceSet

end Provenance
