/-
Source units.

A source unit is what a source file says about classes: its package, its
declarations in order, and the digest of the text they were found in. A text
that no language is known for has a unit too, one that declares nothing.
-/
import Provenance.Outline.Declaration
import Provenance.Digest

set_option autoImplicit false

namespace Provenance.Outline

/-- The parsed view of one source file. -/
structure SourceUnit where
  path : Text
  package : Option Text
  declarations : List Declaration
  /-- the digest of the text -/
  digest : Text
  deriving DecidableEq, Repr

/-- The declarations that have an artifact of their own. -/
def SourceUnit.topLevel (u : SourceUnit) : List Declaration :=
  u.declarations.filter Declaration.isTopLevel

/-- The unit of a text that declares nothing. -/
def SourceUnit.bare (path text : Text) : SourceUnit := ⟨path, none, [], Digest.ofText text⟩

end Provenance.Outline
