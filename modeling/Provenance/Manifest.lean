/-
Manifests.

A manifest is read for a project on a disk: sources that it gives by relative
paths are taken below the absolute form of the project root. That form is looked
for once the manifest is known to have a list of outputs, and before any of them
is read, so of two faults the first in this order is the error.
-/
import Provenance.Build
import Provenance.Disk.Absolute

set_option autoImplicit false

namespace Provenance.Build

/-- The build that a manifest describes, for the project in a directory. -/
def ofManifest (d : Disk) (projectRoot : Path) (manifest : Json) : Except Cause Build := do
  let values ← (outputsIn manifest).mapError .manifest
  let root ← d.absolute projectRoot
  (readOutputs root 0 values).mapError .manifest

/-- The build that a manifest file describes, for the project in a directory. -/
def load (d : Disk) (path projectRoot : Path) : Except Cause Build := do
  let content ← (d.read path).mapError fun e => .io (.ofErrno e path)
  let text ← (Utf8.decode content).mapError .encoding
  let manifest ← (Json.read text).mapError .json
  ofManifest d projectRoot manifest

end Provenance.Build
