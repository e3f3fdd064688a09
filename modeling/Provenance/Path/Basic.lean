/-
Paths.

A path is an anchor and a list of names. Its text is cut at slashes; empty
pieces and single dots say nothing and are dropped, while two dots are kept,
since what they mean depends on links. A text with exactly two leading slashes
keeps both, any other number of leading slashes is one.

Everything in this file is lexical: no question is put to a file system.
-/
import Provenance.Text.Quoted

set_option autoImplicit false

namespace Provenance

/-- Where a path starts. -/
inductive Anchor where
  /-- at the place it is joined to -/
  | here
  /-- at the root -/
  | root
  /-- at the root, written with two slashes -/
  | twinRoot
  deriving DecidableEq, Repr

/-- The text of an anchor. -/
def Anchor.text : Anchor → Text
  | .here => []
  | .root => ['/']
  | .twinRoot => ['/', '/']

/-- A path: where it starts, and the names from there. -/
structure Path where
  anchor : Anchor
  names : List Text
  deriving DecidableEq, Repr

namespace Path

/-! ## Text -/

/-- The name for the directory above. -/
def upName : Text := ['.', '.']

/-- The anchor that a text begins with. -/
def anchorOf : Text → Anchor
  | '/' :: '/' :: '/' :: _ => .root
  | '/' :: '/' :: _ => .twinRoot
  | '/' :: _ => .root
  | _ => .here

/-- The names in a text: its pieces between slashes that are neither empty nor a single dot. -/
def namesIn (t : Text) : List Text := (t.splitOn '/').filter fun n => n ≠ [] ∧ n ≠ ['.']

/-- The path that a text denotes. -/
def ofText (t : Text) : Path := ⟨anchorOf t, namesIn t⟩

/-- The text of a path, empty for the path that goes nowhere. -/
def bareText (p : Path) : Text := p.anchor.text ++ Text.join ['/'] p.names

/-- The text of a path; the path that goes nowhere is a dot. -/
def text (p : Path) : Text :=
  match p.bareText with
  | [] => ['.']
  | t => t

/-- Whether the path starts at a root. -/
def isAbsolute (p : Path) : Bool := p.anchor ≠ .here

/-! ## Parts -/

/-- The anchor, if it has text, and the names. Two paths compare as the lists of their parts do. -/
def parts (p : Path) : List Text :=
  match p.anchor with
  | .here => p.names
  | a => a.text :: p.names

/-- The path with the given parts. -/
def ofParts : List Text → Path
  | ['/'] :: names => ⟨.root, names⟩
  | ['/', '/'] :: names => ⟨.twinRoot, names⟩
  | names => ⟨.here, names⟩

instance : Ord Path := ⟨fun p q => compare p.parts q.parts⟩

/-! ## Moving about -/

/-- The path `q` seen from `p`; an absolute path is the same from everywhere. -/
def join (p q : Path) : Path := if q.isAbsolute then q else ⟨p.anchor, p.names ++ q.names⟩

/-- The path one name further. -/
def child (p : Path) (name : Text) : Path := ⟨p.anchor, p.names ++ [name]⟩

/-- The path several names further. -/
def descend (p : Path) (names : List Text) : Path := ⟨p.anchor, p.names ++ names⟩

/-- The path without its last name; without names it stays what it is. -/
def parent (p : Path) : Path := ⟨p.anchor, p.names.dropLast⟩

/-- The last name, empty if there is none. -/
def name (p : Path) : Text := p.names.getLastD []

/-- The end of the last name from its last dot on, provided the dot is neither the first nor the
last character of the name. -/
def suffix (p : Path) : Text :=
  match p.name.splitAtLast '.' with
  | some (_ :: _, e :: es) => '.' :: e :: es
  | _ => []

/-- What is left of `p` after the names of `base`, if it starts where `base` does and goes through
it. Two dots are names like any other here. -/
def relativeTo? (p base : Path) : Option Path :=
  if p.anchor = base.anchor ∧ base.names.isPrefixOf p.names then
    some ⟨.here, p.names.drop base.names.length⟩
  else none

/-- Goes through names from a stack of names (last first): two dots take one off, if there is one,
and every other name is put on. -/
def walkNames : List Text → List Text → List Text
  | stack, [] => stack.reverse
  | stack, n :: rest => if n = upName then walkNames stack.tail rest else walkNames (n :: stack) rest

end Path

end Provenance
