/-
Loading the settings of a project.

The settings file is a TOML document in the project root; a project without one
has the default settings. Nothing is written.
-/
import Provenance.Settings.Merge
import Provenance.Toml.Document
import Provenance.Disk.Absolute

set_option autoImplicit false

namespace Provenance.Settings

/-- The fields of the settings file in a project root; none if there is no such file. -/
def readFile (d : Disk) (root : Path) : Except Cause Fields := do
  let path := root.child fileName
  if ← (d.hasEntry path).mapError fun e => .io (.ofErrno e path) then
    let content ← (d.read path).mapError fun e => .io (.ofErrno e path)
    let text ← (Utf8.decode content).mapError .encoding
    (Toml.read text).mapError .toml
  else return []

/-- The settings of the project in a directory, under the overrides of the caller. The file is looked
for in the absolute form of the directory, and the project root is the absolute form of that in turn.
The two differ only if the way to the directory goes through a link that leads back to itself: the
first may then still go through links. -/
def load (d : Disk) (projectRoot : Path) (o : Overrides) : Except Cause Settings := do
  let directory ← d.absolute projectRoot
  let root ← d.absolute directory
  let file ← readFile d directory
  let merged ← (merge (default root) file o).mapError .settings
  let dataDir ← d.absolute merged.dataDir
  return { merged with dataDir := dataDir }

end Provenance.Settings
