/-
Discovery of sources.

The sources of a project are found by looking at everything below its source
directories. Links are neither followed nor reported, directories that a pattern
excludes as a whole are not entered, and of the regular files those are kept
that have the suffix of a source and are not excluded. A directory whose path is
too long to be listed is passed over. The keys come out sorted, each once, even
if source directories overlap.
-/
import Provenance.SourceSet.Rules
import Provenance.Disk.Absolute

set_option autoImplicit false

namespace Provenance.SourceSet

/-- The beginnings of a list of names that are shorter than it and not empty. -/
def properStarts : List Text → List (List Text)
  | [] => []
  | [_] => []
  | n :: rest => [n] :: (properStarts rest).map (n :: ·)

/-- Whether the search below a path, given relative to the project root, enters all directories on
the way to some names. -/
def enters (rules : SourceSettings) (base : Path) (names : List Text) : Bool :=
  (properStarts names).all fun above => !rules.prunes (above.getLastD []) (base.descend above).text

/-- Whether a search below a path, given relative to the project root, reports an entry. -/
def reports (rules : SourceSettings) (base : Path) (names : List Text) (e : Entry) : Bool :=
  let key := (base.descend names).text
  e.isFile && enters rules base names && !rules.excluded key && rules.hasSourceSuffix key

/-- The names of the entry that a search comes to first, the last of those directly below. -/
def firstNames (entries : List (List Text × Entry)) : List Text :=
  ((entries.filter fun ne => ne.1.length = 1).getLast?.map Prod.fst).getD []

/-- The keys of the sources below one source directory; nothing if it is no directory. A source
directory that is not below the project root has no keys to give. -/
def foundBelow (d : Disk) (root : Path) (rules : SourceSettings) (start : Path) :
    Except Cause (List Text) :=
  match d.hasDirectory start with
  | .error e => .error (.io (.ofErrno e start))
  | .ok false => .ok []
  | .ok true =>
    match d.stat start with
    | .error e => .error (.io (.ofErrno e start))
    | .ok (l, _) =>
      match (d.tree.inside l).filter fun ne => !Disk.isOverlong (start.descend ne.1.dropLast) with
      | [] => .ok []
      | entries =>
        match start.relativeTo? root with
        | none => .error (.outside ⟨start.descend (firstNames entries), root⟩)
        | some base =>
          .ok ((entries.filter fun ne => reports rules base ne.1 ne.2).map fun ne =>
            (base.descend ne.1).text)

/-- The keys found below several source directories. -/
def foundBelowAll (d : Disk) (root : Path) (rules : SourceSettings) :
    List Text → Except Cause (List Text)
  | [] => .ok []
  | dir :: dirs =>
    match foundBelow d root rules (root.join (.ofText dir)) with
    | .error e => .error e
    | .ok keys => (foundBelowAll d root rules dirs).map (keys ++ ·)

/-- The keys of all sources of a project, sorted. -/
def discover (d : Disk) (root : Path) (rules : SourceSettings) : Except Cause (List Text) := do
  let keys ← foundBelowAll d (← d.absolute root) rules rules.roots
  return sorted (distinct keys)

end Provenance.SourceSet
