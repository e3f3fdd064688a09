/-
Changes between two trees.

A run works on a tree in memory. What it did to the tree is then brought to the
disk that the tree was read from, as a list of changes that can be made one
after the other: what is gone is removed first, the deepest first, and what is
new is made after that, directories before what is in them. The time of a
directory follows from the changes in it and is none of them.
-/
import Provenance.Disk.Tree

set_option autoImplicit false

namespace Provenance.Tree

/-- One change of a disk. -/
inductive Change where
  /-- removes an entry that is no directory -/
  | removeFile (l : Location)
  /-- removes a directory, empty by then -/
  | removeDirectory (l : Location)
  | makeDirectory (l : Location)
  /-- writes the content of a file, which may be there already; its time becomes the present one -/
  | writeFile (l : Location) (content : Bytes)
  deriving DecidableEq, Repr

/-- Whether two entries are of one kind, so that one can become the other where it is. -/
def sameKind : Entry → Entry → Bool
  | .directory _, .directory _ => true
  | .file _ _, .file _ _ => true
  | .link target, .link target' => target = target'
  | .special _, .special _ => true
  | _, _ => false

/-- Whether a tree has an entry of the given kind at a location. -/
def hasKind (t : Tree) (l : Location) (e : Entry) : Bool := (t.find? l).any (sameKind e)

/-- The change that takes an entry away. -/
def removalOf (l : Location) (e : Entry) : Change :=
  if e.isDirectory then .removeDirectory l else .removeFile l

/-- The change that makes an entry what it is after a run, if there is anything to do. Links and
special entries are never made by a run. -/
def makingOf? (before : Tree) (l : Location) : Entry → Option Change
  | .directory time => if before.hasKind l (.directory time) then none else some (.makeDirectory l)
  | .file content time =>
    if before.find? l = some (.file content time) then none else some (.writeFile l content)
  | .link _ => none
  | .special _ => none

/-- The entries of a tree in ascending order of their locations. -/
def ascending (t : Tree) : List (Location × Entry) := sortOn Prod.fst t.entries

/-- The changes that lead from one tree to another. -/
def changes (before after : Tree) : List Change :=
  let gone := before.ascending.filter fun le => !after.hasKind le.1 le.2
  gone.reverse.map (fun le => removalOf le.1 le.2)
    ++ after.ascending.filterMap fun le => makingOf? before le.1 le.2

end Provenance.Tree
