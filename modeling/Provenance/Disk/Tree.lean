/-
Trees of files.

A tree is an entry and, if that is a directory, the trees in it by their names.
A location is the list of names that leads from the root to an entry through
directories alone, so each entry has exactly one. Every function here that
changes a tree goes down to one location and leaves everything beside its way as
it is.

A directory keeps the time of the last change to its list of entries; every
function here that adds or takes away an entry moves it. The trees in a directory
are in the order in which they were made.
-/
import Provenance.Path.Basic
import Provenance.Text.Utf8
import Provenance.Order

set_option autoImplicit false

namespace Provenance

/-- The names from the root to an entry, through directories alone. -/
abbrev Location := List Text

/-- What a location holds. Times are in nanoseconds. -/
inductive Entry where
  | directory (time : Int)
  | file (content : Bytes) (time : Int)
  /-- a symbolic link; a relative target starts at the directory the link is in -/
  | link (target : Path)
  /-- neither a regular file nor a directory -/
  | special (time : Int)
  deriving DecidableEq, Repr

namespace Entry

/-- Whether the entry is a directory. -/
def isDirectory : Entry → Bool
  | .directory _ => true
  | _ => false

/-- Whether the entry is a regular file. -/
def isFile : Entry → Bool
  | .file _ _ => true
  | _ => false

/-- The time of the last change; links have none of interest. -/
def time : Entry → Int
  | .directory t => t
  | .file _ t => t
  | .link _ => 0
  | .special t => t

/-- The entry with another time. -/
def setTime (t : Int) : Entry → Entry
  | .directory _ => .directory t
  | .file content _ => .file content t
  | .link target => .link target
  | .special _ => .special t

/-- The number of bytes that the list of entries of a directory takes. -/
def directoryBytes : Nat := 4096

/-- The number of bytes that an entry takes: those that a file holds, or those of the list of entries
of a directory. -/
def size : Entry → Nat
  | .directory _ => directoryBytes
  | .file content _ => content.length
  | _ => 0

end Entry

/-- A tree of files: an entry, and the trees in it by their names. -/
inductive Tree where
  | node (entry : Entry) (children : List (Text × Tree))
  deriving Repr

namespace Tree

/-! ## One level -/

/-- The entry at the root of a tree. -/
def entry : Tree → Entry
  | node e _ => e

/-- The trees directly below the root, by their names. -/
def children : Tree → List (Text × Tree)
  | node _ trees => trees

/-- An entry with nothing below it. -/
def leaf (e : Entry) : Tree := node e []

/-- The tree that is a root directory and nothing else. -/
def bare : Tree := leaf (.directory 0)

/-- The tree of a name. -/
def child? (t : Tree) (name : Text) : Option Tree := t.children.lookup name

/-- Sets the tree of a name: in its place if there is one, else at the end. -/
def setNamed (name : Text) (tree : Tree) : List (Text × Tree) → List (Text × Tree)
  | [] => [(name, tree)]
  | (n, t) :: rest => if n = name then (n, tree) :: rest else (n, t) :: setNamed name tree rest

/-- Sets the tree of a name. -/
def setChild (t : Tree) (name : Text) (tree : Tree) : Tree :=
  node t.entry (setNamed name tree t.children)

/-- Takes away the tree of a name. -/
def dropChild (t : Tree) (name : Text) : Tree :=
  node t.entry (t.children.filter fun nt => nt.1 ≠ name)

/-- Sets the entry at the root; what is below it stays. -/
def setEntry (t : Tree) (e : Entry) : Tree := node e t.children

/-- Moves the time of the entry at the root. -/
def setTime (t : Tree) (time : Int) : Tree := t.setEntry (t.entry.setTime time)

/-! ## Locations -/

/-- The tree at a location. -/
def at? (t : Tree) : Location → Option Tree
  | [] => some t
  | n :: l =>
    match t.child? n with
    | some c => c.at? l
    | none => none

/-- The entry at a location. -/
def find? (t : Tree) (l : Location) : Option Entry := (t.at? l).map entry

/-- Whether a location is a directory. -/
def isDirectory (t : Tree) (l : Location) : Bool := (t.find? l).any Entry.isDirectory

/-- Whether nothing is below a location. -/
def isEmptyAt (t : Tree) (l : Location) : Bool := (t.at? l).all (·.children.isEmpty)

/-- Puts an entry at a location, in place of the one that is there; nothing is put where the way to
the location ends early. -/
def put (t : Tree) (l : Location) (e : Entry) : Tree :=
  match l with
  | [] => t.setEntry e
  | n :: l =>
    match t.child? n, l with
    | some c, l => t.setChild n (c.put l e)
    | none, [] => t.setChild n (leaf e)
    | none, _ :: _ => t

/-- Moves the time of the entry at a location, if there is one. -/
def stamp (t : Tree) (l : Location) (time : Int) : Tree :=
  match l with
  | [] => t.setTime time
  | n :: l =>
    match t.child? n with
    | some c => t.setChild n (c.stamp l time)
    | none => t

/-- Takes away the entry at a location with everything below it; the root stays. -/
def prune (t : Tree) (l : Location) : Tree :=
  match l with
  | [] => t
  | [n] => t.dropChild n
  | n :: l =>
    match t.child? n with
    | some c => t.setChild n (c.prune l)
    | none => t

/-- Adds an entry and moves the time of the directory it is in. -/
def add (t : Tree) (l : Location) (e : Entry) (now : Int) : Tree :=
  (t.put l e).stamp l.dropLast now

/-- Takes away an entry with everything below it, and moves the time of the directory it was in. -/
def remove (t : Tree) (l : Location) (now : Int) : Tree := (t.prune l).stamp l.dropLast now

/-! ## All entries -/

mutual

/-- The entries of a tree with their locations. -/
def entries : Tree → List (Location × Entry)
  | node e trees => ([], e) :: entriesBelow trees

/-- The entries of trees with their locations, seen from the directory that the trees are in. -/
def entriesBelow : List (Text × Tree) → List (Location × Entry)
  | [] => []
  | (n, t) :: rest => t.entries.map (fun le => (n :: le.1, le.2)) ++ entriesBelow rest

end

mutual

/-- The names that lead to the directories below a tree, each before those in it; of the directories
in one the newest comes first. -/
def directories : Tree → List (List Text)
  | node _ trees => directoriesAmong trees

/-- The names that lead to the directories among some trees and below them, from the last tree to the
first. -/
def directoriesAmong : List (Text × Tree) → List (List Text)
  | [] => []
  | (n, t) :: rest =>
    directoriesAmong rest
      ++ if t.entry.isDirectory then [n] :: t.directories.map (n :: ·) else []

end

/-- Everything below a location, with the names that lead to it, in ascending order. -/
def inside (t : Tree) (l : Location) : List (List Text × Entry) :=
  match t.at? l with
  | some d => sortOn Prod.fst (entriesBelow d.children)
  | none => []

/-- The tree of entries with their locations, directories before what is in them. -/
def ofEntries (entries : List (Location × Entry)) : Tree :=
  entries.foldl (fun t le => t.put le.1 le.2) bare

/-! ## Well-formed trees -/

/-- A tree in which only directories have anything below them, every name in a directory comes once,
and the root is a directory. -/
structure WellFormed (t : Tree) : Prop where
  root : t.entry.isDirectory = true
  directories : ∀ l d, t.at? l = some d → d.children ≠ [] → d.entry.isDirectory = true
  nodup : ∀ l d, t.at? l = some d → (d.children.map Prod.fst).Nodup

end Tree

end Provenance
