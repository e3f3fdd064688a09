/-
Project keys.

A file of a project is known by its key, the text of its path below the project
root. Keys index the ledger and the set of tracked files, so every spelling of a
location has to come to the same key: `normalizeKey?` reads a spelling, with
backslashes for slashes, two dots resolved by name, and a relative spelling
taken below the root.
-/
import Provenance.Path.Basic

set_option autoImplicit false

namespace Provenance

/-- A path that was asked for its place below another and has none. -/
structure Outside where
  path : Path
  base : Path
  deriving DecidableEq, Repr

/-- The wording of the error; both paths are quoted. -/
def Outside.message (e : Outside) : Text :=
  e.path.text.quoted ++ " is not in the subpath of ".toList ++ e.base.bareText.quoted
    ++ " OR one path is relative and the other is absolute.".toList

namespace Path

/-- The key of a path below the project root. -/
def key (p root : Path) : Except Outside Text :=
  match p.relativeTo? root with
  | some rest => .ok rest.text
  | none => .error ⟨p, root⟩

/-- The path a spelling denotes before its dots are resolved. -/
def spelled (root : Path) (raw : Text) : Path := root.join (ofText (raw.replaceChar '\\' '/'))

/-- The path a spelling denotes, two dots resolved by name. The root itself counts as a name that
two dots can take off. When nothing is left the spelling stays as it is. -/
def resolveSpelling (root : Path) (raw : Text) : Path :=
  match walkNames [] (spelled root raw).parts with
  | [] => spelled root raw
  | parts => ofParts parts

/-- The key of the location that a spelling denotes; none outside the project. -/
def normalizeKey? (root : Path) (raw : Text) : Option Text :=
  ((resolveSpelling root raw).relativeTo? root).map text

end Path

end Provenance
