/-
Builds.

A build tells which artifacts a compilation produced and from which sources. It
is handed over as a manifest, a JSON object with a list of outputs; an output
has the path of the artifact in the output directory and the paths of its
sources, which are taken below the project root unless they are absolute.
-/
import Provenance.Path.Basic
import Provenance.Json.Basic

set_option autoImplicit false

namespace Provenance

/-- One artifact of a build and the sources it was made from. -/
structure Output where
  path : Text
  sources : List Path
  deriving DecidableEq, Repr

/-- The artifacts of a build, in order. -/
abbrev Build := List Output

/-- Why a manifest is refused; `index` counts the outputs from zero. -/
inductive ManifestError where
  | noObject
  | noOutputs
  | outputNoObject (index : Nat)
  | outputPath (index : Nat)
  | outputSources (index : Nat)
  deriving DecidableEq, Repr

/-- The wording of the error. -/
def ManifestError.message : ManifestError → Text
  | .noObject => "Compilation manifest must be a JSON object.".toList
  | .noOutputs => "Compilation manifest field 'output_files' must be a list.".toList
  | .outputNoObject i => "Manifest output_files[".toList ++ Text.ofNat i ++ "] must be an object.".toList
  | .outputPath i =>
    "Manifest output_files[".toList ++ Text.ofNat i ++ "].relative_path must be a string.".toList
  | .outputSources i =>
    "Manifest output_files[".toList ++ Text.ofNat i
      ++ "].source_files must be a list of strings.".toList

namespace Build

/-- The texts in a list of values, if all values are texts. -/
def allTexts : List Json → Option (List Text)
  | [] => some []
  | .str t :: rest => (allTexts rest).map (t :: ·)
  | _ :: _ => none

/-- The sources an output names; none if it does not say. -/
def sourcesIn (fields : Fields) : Option (List Text) :=
  match Fields.get? "source_files".toList fields with
  | none => some []
  | some (.arr items) => allTexts items
  | some _ => none

/-- The output that a value of a manifest describes. -/
def readOutput (root : Path) (index : Nat) : Json → Except ManifestError Output
  | .obj fields =>
    match Fields.get? "relative_path".toList fields with
    | some (.str path) =>
      match sourcesIn fields with
      | some sources => .ok ⟨path, sources.map fun s => root.join (.ofText s)⟩
      | none => .error (.outputSources index)
    | _ => .error (.outputPath index)
  | _ => .error (.outputNoObject index)

/-- The outputs that the values of a manifest describe, counted from `index`. -/
def readOutputs (root : Path) : Nat → List Json → Except ManifestError Build
  | _, [] => .ok []
  | index, value :: rest =>
    match readOutput root index value with
    | .error e => .error e
    | .ok output => (readOutputs root (index + 1) rest).map (output :: ·)

/-- The values in the list of outputs of a manifest. -/
def outputsIn : Json → Except ManifestError (List Json)
  | .obj fields =>
    match Fields.get? "output_files".toList fields with
    | some (.arr values) => .ok values
    | _ => .error .noOutputs
  | _ => .error .noObject

end Build

end Provenance
