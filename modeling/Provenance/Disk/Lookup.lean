/-
Looking up paths.

A disk is a tree and a current directory, from which relative paths start. Once
that directory has been removed it is an empty directory beside the tree, even if
a new one takes its place: no name is found in it and none can be made in it, but
two dots still lead to the directory that it was in. A path is looked up name by
name. Two dots lead to the directory above; a link on
the way is followed, and a link at the end if the caller wants it; everything
but the last name has to be a directory. A name may have 255 bytes; a longer one
is an error where it is reached, so only if everything before it is there. A path
as a whole may have 4095 bytes; a longer one is not looked up at all. After forty
links the search is given up.

The search is structural: within one path over the names still to go, and over
the number of links that may still be followed.
-/
import Provenance.Disk.Tree
import Provenance.Disk.Error

set_option autoImplicit false

namespace Provenance

/-- A tree of files and the directory from which relative paths start. -/
structure Disk where
  tree : Tree
  /-- where the current directory is, or was -/
  current : Location
  /-- whether the current directory has been removed -/
  adrift : Bool
  deriving Repr

namespace Disk

/-! ## Search -/

/-- Where a path leads. -/
inductive Place where
  | present (location : Location) (entry : Entry)
  /-- the directory is there, the name in it is not -/
  | absent (directory : Location) (name : Text)
  deriving DecidableEq, Repr

/-- The largest number of bytes in a name. -/
def maxNameBytes : Nat := 255

/-- The largest number of bytes in the text of a path. -/
def maxPathBytes : Nat := 4095

/-- Whether the text of a path is too long to be looked up. -/
def isOverlong (p : Path) : Bool := maxPathBytes < (Utf8.encode p.text).length

/-- How many links one search follows. -/
def maxLinks : Nat := 40

/-- A way down a tree: the names from the root, last first, each with the tree that it leads to. -/
abbrev Way := List (Text × Tree)

/-- The location that a way leads to. -/
def Way.location (w : Way) : Location := (w.map Prod.fst).reverse

/-- The tree that a way leads to. -/
def Way.tree (root : Tree) : Way → Tree
  | [] => root
  | (_, t) :: _ => t

/-- The way to a location, after the way `w` to the tree that it starts at. -/
def wayFrom? (w : Way) (t : Tree) : Location → Option Way
  | [] => some w
  | n :: l =>
    match t.child? n with
    | some c => wayFrom? ((n, c) :: w) c l
    | none => none

/-- The location that a path starts at, and the names that are to be gone through from there. A path
that stays in a current directory that has been removed starts at no location. -/
def start? (d : Disk) (p : Path) : Option (Location × List Text) :=
  if p.isAbsolute then some ([], p.names)
  else if !d.adrift then some (d.current, p.names)
  else match p.names with
    | [] => none
    | name :: rest => if name = Path.upName then some (d.current.dropLast, rest) else none

/-- The way that the target of a link starts at; the link is in the directory that `w` leads to. -/
def targetStart (w : Way) (target : Path) : Way := if target.isAbsolute then [] else w

/-- Goes through names after a way from `root`. `follow` tells whether a link at the end is followed,
and `onLink` goes through the names that a link leads to. -/
def searchWith (root : Tree) (follow : Bool) (onLink : Way → List Text → Except Errno Place) :
    Way → List Text → Except Errno Place
  | w, [] => .ok (.present w.location (w.tree root).entry)
  | w, name :: rest =>
    if !(w.tree root).entry.isDirectory then .error .notDirectory
    else if name = Path.upName then searchWith root follow onLink w.tail rest
    else if maxNameBytes < (Utf8.encode name).length then .error .nameTooLong
    else match (w.tree root).child? name with
      | none => if rest.isEmpty then .ok (.absent w.location name) else .error .notFound
      | some t =>
        match t.entry with
        | .link target =>
          if rest.isEmpty && !follow then .ok (.present (w.location ++ [name]) (.link target))
          else onLink (targetStart w target) (target.names ++ rest)
        | _ => searchWith root follow onLink ((name, t) :: w) rest

/-- Goes through names after a way; the number bounds the links that are followed. -/
def search (root : Tree) (follow : Bool) : Nat → Way → List Text → Except Errno Place
  | 0 => searchWith root follow fun _ _ => .error .tooManyLinks
  | links + 1 => searchWith root follow (search root follow links)

/-- Where a path leads; `follow` tells whether a link at its end is followed. -/
def place (d : Disk) (follow : Bool) (p : Path) : Except Errno Place :=
  if isOverlong p then .error .nameTooLong
  else match d.start? p with
    | none => if p.names = [] then .ok (.present d.current (.directory 0)) else .error .notFound
    | some (start, names) =>
      match wayFrom? [] d.tree start with
      | some w => search d.tree follow maxLinks w names
      | none => .error .notFound

/-! ## Questions -/

/-- The location and the entry that a path leads to, links followed. -/
def stat (d : Disk) (p : Path) : Except Errno (Location × Entry) :=
  match d.place true p with
  | .ok (.present l e) => .ok (l, e)
  | .ok (.absent _ _) => .error .notFound
  | .error e => .error e

/-- The errors of a search that only mean that there is nothing. -/
def meansAbsent : Errno → Bool
  | .notFound | .notDirectory | .tooManyLinks => true
  | _ => false

/-- Whether what a path leads to satisfies `p`; what is not there does not. -/
def holds (d : Disk) (path : Path) (p : Entry → Bool) : Except Errno Bool :=
  match d.stat path with
  | .ok (_, e) => .ok (p e)
  | .error e => if meansAbsent e then .ok false else .error e

/-- Whether a path leads to something. -/
def hasEntry (d : Disk) (p : Path) : Except Errno Bool := d.holds p fun _ => true

/-- Whether a path leads to a directory. -/
def hasDirectory (d : Disk) (p : Path) : Except Errno Bool := d.holds p Entry.isDirectory

/-- Whether a path leads to a regular file. -/
def hasFile (d : Disk) (p : Path) : Except Errno Bool := d.holds p Entry.isFile

/-- The content of the file that a path leads to. -/
def read (d : Disk) (p : Path) : Except Errno Bytes :=
  match d.stat p with
  | .ok (_, .file content _) => .ok content
  | .ok (_, .directory _) => .error .isDirectory
  | .ok _ => .ok []
  | .error e => .error e

/-! ## Canonical paths -/

/-- One step up from a path that goes through no link. The last name is taken off; where there is
none that could be, two dots are put on. -/
def stepUp (p : Path) : Path :=
  if p.isAbsolute then p.parent
  else if p.names = [] || p.name = Path.upName then p.child Path.upName
  else p.parent

/-- The location that a path through no link leads to, if it starts at one. -/
def locationOf (d : Disk) (p : Path) : Option Location :=
  (d.start? p).map fun sn => Path.walkNames sn.1.reverse sn.2

/-- The path that the names of a link in a directory start at. -/
def linkStart (directory target : Path) : Path :=
  if target.isAbsolute then ⟨.root, []⟩ else directory

/-- The links met on a search, each by the path it was met at, and what it leads to; nothing while
the search is still on its way. -/
abbrev Links := List (Path × Option Path)

/-- What a search for a path without links comes to: the path, whether no link was met again on its
own way, and the links met. -/
structure Canonical where
  path : Path
  sound : Bool
  links : Links

/-- Goes through names from a path as long as they are there, replacing links by what they lead to;
from where nothing is there the names stand for themselves. A link whose path is too long is not
looked up and stands for itself too. `onLink` goes through the names of a link. If a link is met
again on its own way, the names from it on are left as they are. -/
def canonicalWith (d : Disk) (onLink : Links → Path → List Text → Canonical) :
    Links → Path → List Text → Canonical
  | links, at_, [] => ⟨at_, true, links⟩
  | links, at_, name :: rest =>
    let here := at_.child name
    if name = Path.upName then canonicalWith d onLink links (stepUp at_) rest
    else match (d.locationOf here).bind d.tree.find? with
      | some (.link target) =>
        if isOverlong here then canonicalWith d onLink links here rest
        else match links.lookup here with
          | some (some p) => canonicalWith d onLink links p rest
          | some none => ⟨here.descend rest, false, links⟩
          | none =>
            let led := onLink ((here, none) :: links) (linkStart at_ target) target.names
            if led.sound then
              canonicalWith d onLink ((here, some led.path) :: led.links) led.path rest
            else ⟨led.path.descend rest, false, led.links⟩
      | _ => canonicalWith d onLink links here rest

/-- Goes through names from a path, links replaced; the number bounds how many links can be on their
way at once. -/
def canonical (d : Disk) : Nat → Links → Path → List Text → Canonical
  | 0 => canonicalWith d fun links p _ => ⟨p, false, links⟩
  | depth + 1 => canonicalWith d (canonical d depth)

/-- Why a path stands for no absolute path. -/
inductive Unresolved where
  /-- it is relative, and the current directory has been removed -/
  | adrift
  /-- a link leads back to itself; the path as far as it could be made out -/
  | loop (path : Path)
  deriving DecidableEq, Repr

/-- The absolute path without links, dots and double slashes that a path stands for; names that lead
nowhere are kept. A relative path stays relative until a link leads it to the root, and a link is met
again only if it is met at the same path. -/
def resolve (d : Disk) (p : Path) : Except Unresolved Path :=
  let start : Path := ⟨if p.isAbsolute then .root else .here, []⟩
  let found := canonical d (2 * d.tree.entries.length) [] start p.names
  match d.locationOf found.path, d.adrift && !found.path.isAbsolute with
  | some location, false =>
    let resolved : Path := ⟨.root, location⟩
    match d.stat resolved with
    | .error .tooManyLinks => .error (.loop resolved)
    | _ => .ok resolved
  | _, _ => .error .adrift

end Disk

end Provenance
