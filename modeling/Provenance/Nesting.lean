/-
Nesting.

Values nest in documents and directories in directories, and whoever goes
through them one level at a time has to stop somewhere. Everything here stops
at the same depth, far below any that a project needs, and says so.
-/

set_option autoImplicit false

namespace Provenance

/-- How many levels deep a reader of documents or directories goes. -/
def maxNesting : Nat := 985

end Provenance
