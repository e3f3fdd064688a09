/-
Absolute paths.

The absolute form of a path is the location that it leads to on a disk, links
and double dots resolved as far as there is something to resolve them with. A
path with a link that leads back to itself has none, which is a failure of its
own and not that of a call. Nor has a relative path once the current directory has
been removed: the call that asks where it is fails, and it is a call on no path.
-/
import Provenance.Disk.Lookup
import Provenance.Failure

set_option autoImplicit false

namespace Provenance.Disk

/-- The cause that a path without an absolute form is of. -/
def Unresolved.cause : Unresolved → Cause
  | .adrift => .io (.pathless .notFound)
  | .loop path => .linkLoop path.text

/-- The absolute path that a path stands for on a disk. -/
def absolute (d : Disk) (p : Path) : Except Cause Path := (d.resolve p).mapError Unresolved.cause

end Provenance.Disk
