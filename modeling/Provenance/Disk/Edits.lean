/-
What a user does to a disk.

Between updates the files of a project change under the hands of its user:
files are written, directories and links made, entries removed with everything
below them, times set. None of these is a call that an update makes.
-/
import Provenance.Disk.Calls

set_option autoImplicit false

namespace Provenance.Disk

/-- Writes the content of a file, which is created if it is missing; links are followed. -/
def write (d : Disk) (p : Path) (content : Bytes) (now : Int) : Except Errno Disk :=
  match d.place true p with
  | .ok (.absent dir name) => .ok (d.withTree (d.tree.add (dir ++ [name]) (.file content now) now))
  | .ok (.present l (.file _ _)) => .ok (d.withTree (d.tree.put l (.file content now)))
  | .ok (.present _ (.directory _)) => .error .isDirectory
  | .ok (.present _ _) => .ok d
  | .error e => .error e

/-- Makes an entry where nothing is. -/
def make (d : Disk) (p : Path) (e : Entry) (now : Int) : Except Errno Disk :=
  match d.place false p with
  | .ok (.absent dir name) => .ok (d.withTree (d.tree.add (dir ++ [name]) e now))
  | .ok (.present _ _) => .error .alreadyThere
  | .error e => .error e

/-- Makes a symbolic link. -/
def link (d : Disk) (p target : Path) (now : Int) : Except Errno Disk :=
  if isOverlong target then .error .nameTooLong else d.make p (.link target) now

/-- Makes an entry that is neither a file nor a directory. -/
def makeSpecial (d : Disk) (p : Path) (now : Int) : Except Errno Disk := d.make p (.special now) now

/-- Removes everything that is in the directory that a path names; what is no directory, such as a
link to one, stays as it is. -/
def clear (d : Disk) (p : Path) (now : Int) : Except Errno Disk :=
  match d.place false p with
  | .ok (.absent _ _) => .error .notFound
  | .ok (.present l (.directory _)) =>
    let names := (((d.tree.at? l).map Tree.children).getD []).map Prod.fst
    .ok (d.withTree (names.foldl (fun t name => t.remove (l ++ [name]) now) d.tree))
  | .ok (.present _ _) => .ok d
  | .error e => .error e

/-- Removes an entry of any kind, a directory only if it is empty. -/
def remove (d : Disk) (p : Path) (now : Int) : Except Errno Disk :=
  match d.place false p with
  | .ok (.present _ (.directory _)) => d.removeDirectory p now
  | _ => d.unlink p now

end Provenance.Disk
