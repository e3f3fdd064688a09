/-
Merging the layers of the settings.

The settings file is a table with the sections `output`, `sources` and `audit`.
The first value that is refused decides the error, in the order in which the
fields are read below: the three sections, then output, sources and audit, then
the overrides.
-/
import Provenance.Settings.Basic

set_option autoImplicit false

namespace Provenance.Settings

/-! ## The settings file -/

/-- A section of the settings file; empty if it is missing. -/
def sectionOf (file : Fields) (name : String) : Except Refusal Fields :=
  match file.get? name.toList with
  | none => .ok []
  | some (.obj fields) => .ok fields
  | some _ => .error (.noTable name.toList)

/-- The output settings that a section leads to. -/
def mergeOutput (base : OutputSettings) (table : Fields) : Except Refusal OutputSettings := do
  let dir ← match table.get? "dir".toList with
    | none => .ok base.dir
    | some value => directory "output.dir".toList value
  let prune ← boolean "output.prune_empty_dirs".toList base.prune
    (table.get? "prune_empty_dirs".toList)
  return ⟨dir, prune⟩

/-- The source settings that a section leads to. -/
def mergeSources (base : SourceSettings) (table : Fields) : Except Refusal SourceSettings := do
  let roots ← match table.get? "roots".toList with
    | none => .ok base.roots
    | some value => do directories "sources.roots".toList (← texts "sources.roots".toList value)
  let extensions ← match table.get? "include_extensions".toList with
    | none => .ok base.extensions
    | some value => do
      suffixes "sources.include_extensions".toList
        (← texts "sources.include_extensions".toList value)
  let excludes ← match table.get? "exclude_globs".toList with
    | none => .ok base.excludes
    | some value => texts "sources.exclude_globs".toList value
  return ⟨roots, extensions, excludes⟩

/-- The settings with those of the settings file over them. -/
def mergeFile (base : Settings) (file : Fields) : Except Refusal Settings := do
  let outputTable ← sectionOf file "output"
  let sourcesTable ← sectionOf file "sources"
  let auditTable ← sectionOf file "audit"
  let output ← mergeOutput base.output outputTable
  let sources ← mergeSources base.sources sourcesTable
  let audit ← boolean "audit.enabled".toList base.audit (auditTable.get? "enabled".toList)
  return { base with output := output, sources := sources, audit := audit }

/-! ## Overrides -/

/-- The settings with the overrides over them. -/
def mergeOverrides (base : Settings) (o : Overrides) : Except Refusal Settings := do
  let dir ← match o.outputDir with
    | .null => .ok base.output.dir
    | value => directory "overrides.output_dir".toList value
  let prune ← boolean "overrides.prune_empty_dirs".toList base.output.prune (some o.prune)
  let audit ← boolean "overrides.audit_enabled".toList base.audit (some o.audit)
  return { base with
    dataDir := o.dataDir.getD base.dataDir
    output := ⟨dir, prune⟩
    audit := audit }

/-- The settings that the file and the overrides make of the defaults. -/
def merge (base : Settings) (file : Fields) (o : Overrides) : Except Refusal Settings := do
  mergeOverrides (← mergeFile base file) o

end Provenance.Settings
