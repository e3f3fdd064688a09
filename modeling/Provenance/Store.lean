/-
The store of artifacts.

These are the calls that updates make on the files below the output directory.
Each first meets the fault that the host's rules hold for it and then acts on
the disk; asking whether something exists never fails on purpose. Artifacts are
empty files: their existence and their times are all that matters.
-/
import Provenance.Host

set_option autoImplicit false

namespace Provenance.Store

/-! ## Files -/

/-- Whether a path leads to anything. -/
def hasEntry (path : Path) : Action Host Bool := Host.ask path (·.hasEntry path)

/-- Creates an empty file and tells whether it did; what is there already stays. -/
def createIfAbsent (path : Path) : Action Host Bool := do
  Host.meetFault .createIfAbsent path
  let h ← get
  match h.disk.createFile path h.clock.now with
  | .ok disk => do
    set { h with disk := disk, clock := h.clock.next }
    return true
  | .error .alreadyThere => return false
  | .error e => Action.fail (.io (.ofErrno e path))

/-- The disk after a touch: the time of what the path leads to becomes the present time, or one
nanosecond more than it was if that is later. -/
def touched (path : Path) (d : Disk) (now : Int) : Except Errno Disk := do
  let (_, e) ← d.stat path
  d.setTime path (max now (e.time + 1))

/-- Moves the time of what a path leads to forward, without changing its content. -/
def touch (path : Path) : Action Host Unit := do
  Host.meetFault .touch path
  Host.call path (touched path)

/-- Deletes a file. -/
def delete (path : Path) : Action Host Unit := do
  Host.meetFault .delete path
  Host.call path (·.unlink path)

/-! ## Directories -/

/-- The directories on the way to a path, it included, that are missing, outermost first; the
number bounds how far up they are. -/
def missingDirectories : Nat → Path → Action Host (List Path)
  | height, path => do
    if ← hasEntry path then return []
    match height with
    | 0 => return [path]
    | height + 1 => return (← missingDirectories height path.parent) ++ [path]

/-- Creates a directory with all directories that are missing on the way, and tells which those
were, outermost first. -/
def createDirectories (path : Path) : Action Host (List Path) := do
  Host.meetFault .createDirectories path
  let missing ← missingDirectories path.names.length path
  missing.forM Host.makeDirectory
  return missing

/-- Removes an empty directory. -/
def removeDirectory (path : Path) : Action Host Unit := do
  Host.meetFault .removeDirectory path
  Host.call path (·.removeDirectory path)

/-! ## Below a directory -/

/-- What is below the directory that a path leads to, links not followed, with the names that lead
to it; nothing if the path leads to no directory. -/
def below (root : Path) : Action Host (List (List Text × Entry)) := do
  if ← Host.ask root (·.hasDirectory root) then
    let (l, _) ← Host.ask root (·.stat root)
    return (← get).disk.tree.inside l
  else return []

/-- The directories below a directory that can be listed, each before those in it; of the directories
in one the newest comes first. A directory whose path is too long is left out, and what is in it has
a path that is longer still. -/
def directoriesBelow (root : Path) : Action Host (List (List Text)) := do
  if ← Host.ask root (·.hasDirectory root) then
    let (l, _) ← Host.ask root (·.stat root)
    let found := (((← get).disk.tree.at? l).map Tree.directories).getD []
    return found.filter fun names => !Disk.isOverlong (root.descend names)
  else return []

/-- The regular files below a directory, in ascending order. A directory whose path is too long to be
listed is an error, the first one if there are several. -/
def listFiles (root : Path) : Action Host (List Path) := do
  Host.meetFault .listFiles root
  let found ← below root
  let directories := (found.filter (·.2.isDirectory)).map fun ne => root.descend ne.1
  match directories.find? Disk.isOverlong with
  | some directory => Action.fail (.io (.ofErrno .nameTooLong directory))
  | none => return (found.filter (·.2.isFile)).map fun ne => root.descend ne.1

/-- Removes those of some directories that are empty when their turn comes, and tells which. -/
def removeIfEmpty (root : Path) : List (List Text) → Action Host (List (List Text))
  | [] => return []
  | names :: rest => do
    let (l, _) ← Host.ask (root.descend names) (·.stat (root.descend names))
    if (← get).disk.tree.isEmptyAt l then
      removeDirectory (root.descend names)
      return names :: (← removeIfEmpty root rest)
    else removeIfEmpty root rest

/-- Removes the empty directories below a directory, the deepest first, so that a directory that
holds nothing but empty ones goes too; tells which, in ascending order. Of two that are equally deep
the one that the search came to first goes first. If some directory lies too deep, none is
removed. -/
def removeEmptyDirectories (root : Path) : Action Host (List Path) := do
  Host.meetFault .removeEmptyDirectories root
  let directories ← directoriesBelow root
  if directories.any (maxNesting < ·.length) then Action.fail .deepSearch
  let withDepth := directories.map fun names => (names.length, names)
  let deepestFirst := (sortBy (fun a b => compare b.1 a.1) withDepth).map Prod.snd
  let removed ← removeIfEmpty root deepestFirst
  return (sorted removed.reverse).map root.descend

end Provenance.Store
