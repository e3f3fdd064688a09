/-
The program.

This is the only module that touches the world. It reads into a tree what a run
can look at, runs the command on that tree, brings the changes to the disk and
prints the answer. It decides nothing: everything a run does is done by
`CommandLine.run`.

What a run can look at lies below the project root or the data directory, or is
the manifest, or is what a link in one of these places leads to. Each of them is
read from its real location, together with the directories on the way to it.
-/
import Provenance.CommandLine.Run
import Provenance.Disk.Changes
import Std.Data.HashMap
import Std.Data.HashSet
import Std.Time.DateTime.Timestamp

set_option autoImplicit false

namespace Provenance.Program

/-! ## Names of the operating system -/

/-- The name that the operating system knows a location by. -/
def nameOf (l : Location) : String := String.ofList (Path.mk .root l).text

/-- The location that the operating system names. -/
def locationOf (name : String) : Location := (Path.ofText name.toList).names

/-- The result of an action, if it succeeds. -/
def attempt {α : Type} (act : IO α) : IO (Option α) :=
  try some <$> act
  catch _ => pure none

/-! ## Reading the disk -/

/-- What has been read of the disk. -/
structure Reading where
  /-- the entries with their locations, by name -/
  entries : Std.HashMap String (Location × Entry)
  /-- the names of the directories whose content has been read -/
  opened : Std.HashSet String

/-- An action that reads more of the disk. -/
abbrev Reader := StateT Reading IO

/-- Where a link leads that leads nowhere: to a name that no file can have. -/
def nowhere : Path := ⟨.here, [['\x00']]⟩

/-- A time of the operating system, in nanoseconds. -/
def nanoseconds (t : IO.FS.SystemTime) : Int := t.sec * 1000000000 + Int.ofNat t.nsec.toNat

/-- The entry at a location that leads through directories alone. -/
def entryAt? (l : Location) : IO (Option Entry) := do
  let some above ← attempt (IO.FS.realPath (nameOf l.dropLast)) | return none
  let here := match l.getLast? with
    | some name => above / String.ofList name
    | none => above
  let some data ← attempt here.symlinkMetadata | return none
  let time := nanoseconds data.modified
  match data.type with
  | .dir => return some (.directory time)
  | .file =>
    let content ← attempt (IO.FS.readBinFile here)
    return some (.file (content.elim [] (·.toList)) time)
  | .symlink =>
    match ← attempt (IO.FS.realPath here) with
    | some real => return some (.link (.ofText real.toString.toList))
    | none => return some (.link nowhere)
  | .other => return some (.special time)

/-- The names directly below a directory. -/
def namesAt (l : Location) : IO (List Text) := do
  let some here ← attempt (IO.FS.realPath (nameOf l)) | return []
  let some found ← attempt here.readDir | return []
  return found.toList.map (·.fileName.toList)

/-- Notes that an entry is at a location. -/
def note (l : Location) (e : Entry) : Reader Unit :=
  modify fun r => { r with entries := r.entries.insert (nameOf l) (l, e) }

/-- Notes the directories that lead to a location. -/
def noteWay (l : Location) : Reader Unit := do
  for count in List.range l.length do
    let above := l.take count
    if !(← get).entries.contains (nameOf above) then note above (.directory 0)

/-- Reads a location that leads through directories alone, with everything below it and everything
that links there lead to. -/
partial def readTree (l : Location) : Reader Unit := do
  match ← entryAt? l with
  | none => pure ()
  | some e =>
    noteWay l
    note l e
    match e with
    | .directory _ =>
      if !(← get).opened.contains (nameOf l) then
        modify fun r => { r with opened := r.opened.insert (nameOf l) }
        for name in ← namesAt l do
          readTree (l ++ [name])
    | .link target => if target.isAbsolute then readTree target.names
    | _ => pure ()

/-- Reads what a path from a location leads to, with the links and directories on its way. -/
partial def readPath (start : Location) : List Text → Reader Unit
  | [] => readTree start
  | name :: rest => do
    noteWay (start ++ [name])
    if name = Path.upName then readPath start.dropLast rest
    else
      let l := start ++ [name]
      match ← entryAt? l with
      | none => pure ()
      | some (.link target) =>
        note l (.link target)
        if target.isAbsolute then readPath target.names rest
      | some (.directory time) =>
        note l (.directory time)
        readPath l rest
      | some e => note l e

/-- The paths that a run looks at first. -/
def pathsOf (o : CommandLine.Options) : List Text :=
  o.projectRoot.toList ++ (o.dataDir.bind id).toList
    ++ match o.command with
      | .sync manifest _ => manifest.toList
      | .outline _ => []

/-- The tree of what a run with the given arguments can look at. -/
def readTreeFor (current : Location) (args : List Text) : IO Tree := do
  let paths := match CommandLine.readArguments args with
    | .ok o => pathsOf o
    | .error _ => []
  let read : Reader Unit := do
    noteWay (current ++ [[]])
    for path in paths do
      let p := Path.ofText path
      readPath (if p.isAbsolute then [] else current) p.names
  let (_, reading) ← read.run ⟨{}, {}⟩
  return .ofEntries (reading.entries.values.mergeSort fun a b => (compare a.1 b.1).isLE)

/-! ## Changing the disk -/

/-- Makes a change. -/
def make : Tree.Change → IO Unit
  | .removeFile l => IO.FS.removeFile (nameOf l)
  | .removeDirectory l => IO.FS.removeDir (nameOf l)
  | .makeDirectory l => IO.FS.createDir (nameOf l)
  | .writeFile l content => IO.FS.writeBinFile (nameOf l) ⟨content.toArray⟩

/-- The host of a run: the clock starts at the present time and moves on by a microsecond with every
reading. -/
def hostFor (current : Location) (args : List Text) : IO Host := do
  let tree ← readTreeFor current args
  let start := (← Std.Time.Timestamp.now).toNanosecondsSinceUnixEpoch.toInt
  return {
    disk := ⟨tree, current, false⟩
    clock := ⟨fun taken => start + Int.ofNat taken * 1000, 0⟩
    faults := [] }

/-- Runs the program with the given arguments in the current directory: the exit status. -/
def run (args : List Text) : IO UInt32 := do
  let current := locationOf (← IO.currentDir).toString
  let before ← hostFor current args
  let (result, after) := (CommandLine.run args).runOn before
  (before.disk.tree.changes after.disk.tree).forM make
  match result with
  | .ok (.answer value status) =>
    IO.println (String.ofList value.renderSorted)
    return status.toUInt32
  | .ok (.usage stop) => return (CommandLine.usageStatus stop).toUInt32
  | .error f =>
    IO.eprintln (String.ofList f.cause.message)
    return 1

end Provenance.Program

/-- The command line. -/
def main (args : List String) : IO UInt32 := Provenance.Program.run (args.map String.toList)
