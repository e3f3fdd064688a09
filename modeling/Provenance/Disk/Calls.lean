/-
Calls that change a disk.

Each call either changes one entry, and the time of the directory it is in, or
fails and changes nothing. A call is given the time at which it happens.
-/
import Provenance.Disk.Lookup

set_option autoImplicit false

namespace Provenance.Disk

/-- The disk with another tree; if the current directory is not in it, it has been removed. -/
def withTree (d : Disk) (t : Tree) : Disk :=
  { d with tree := t, adrift := d.adrift || !t.isDirectory d.current }

/-- Creates an empty file where nothing is, not even a link. -/
def createFile (d : Disk) (p : Path) (now : Int) : Except Errno Disk :=
  match d.place false p with
  | .ok (.absent dir name) => .ok (d.withTree (d.tree.add (dir ++ [name]) (.file [] now) now))
  | .ok (.present _ _) => .error .alreadyThere
  | .error e => .error e

/-- Appends to a file, which is created if it is missing; links are followed. -/
def append (d : Disk) (p : Path) (bytes : Bytes) (now : Int) : Except Errno Disk :=
  match d.place true p with
  | .ok (.absent dir name) => .ok (d.withTree (d.tree.add (dir ++ [name]) (.file bytes now) now))
  | .ok (.present l (.file content _)) =>
    .ok (d.withTree (d.tree.put l (.file (content ++ bytes) now)))
  | .ok (.present _ (.directory _)) => .error .isDirectory
  | .ok (.present _ _) => .ok d
  | .error e => .error e

/-- Removes an entry that is not a directory; a link itself is removed. -/
def unlink (d : Disk) (p : Path) (now : Int) : Except Errno Disk :=
  match d.place false p with
  | .ok (.absent _ _) => .error .notFound
  | .ok (.present _ (.directory _)) => .error .isDirectory
  | .ok (.present l _) => .ok (d.withTree (d.tree.remove l now))
  | .error e => .error e

/-- Creates a directory where nothing is. -/
def makeDirectory (d : Disk) (p : Path) (now : Int) : Except Errno Disk :=
  match d.place false p with
  | .ok (.absent dir name) => .ok (d.withTree (d.tree.add (dir ++ [name]) (.directory now) now))
  | .ok (.present _ _) => .error .alreadyThere
  | .error e => .error e

/-- Removes an empty directory. A path that ends with two dots names a directory through one of its
entries, and is refused as not empty. -/
def removeDirectory (d : Disk) (p : Path) (now : Int) : Except Errno Disk :=
  match d.place false p with
  | .ok (.absent _ _) => .error .notFound
  | .ok (.present l (.directory _)) =>
    if p.names = [] then .error (if p.isAbsolute then .busy else .badArgument)
    else if p.name = Path.upName then .error .notEmpty
    else if l = [] then .error .busy
    else if d.tree.isEmptyAt l then .ok (d.withTree (d.tree.remove l now))
    else .error .notEmpty
  | .ok (.present _ _) => .error .notDirectory
  | .error e => .error e

/-- Sets the time of what a path leads to. -/
def setTime (d : Disk) (p : Path) (time : Int) : Except Errno Disk :=
  match d.stat p with
  | .ok (l, _) => .ok (d.withTree (d.tree.stamp l time))
  | .error e => .error e

end Provenance.Disk
