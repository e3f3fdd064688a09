/-
Settings.

The settings of a project say where its sources are, where its artifacts go, and
whether update cycles are logged. They come from three layers, each over the
one before: the defaults, the project's settings file and the overrides of the
caller. The values of the last two are checked here; what a layer leaves out
keeps its value.

A directory is given relative to the project root. It is read with backslashes
for slashes, and the names it goes through are kept without empty ones and
single dots.
-/
import Provenance.Path.Basic
import Provenance.Json.Basic
import Provenance.Text.Blank
import Provenance.Text.Lower

set_option autoImplicit false

namespace Provenance

/-! ## Settings -/

/-- Where artifacts go. -/
structure OutputSettings where
  /-- the output directory below the project root -/
  dir : Text
  /-- whether directories left empty are removed -/
  prune : Bool
  deriving DecidableEq, Repr

/-- Which files are sources. -/
structure SourceSettings where
  /-- the source directories below the project root -/
  roots : List Text
  /-- the suffixes of source files -/
  extensions : List Text
  /-- the patterns of files that are no sources -/
  excludes : List Text
  deriving DecidableEq, Repr

/-- The settings of a project. -/
structure Settings where
  projectRoot : Path
  /-- where the project's own records are kept -/
  dataDir : Path
  output : OutputSettings
  sources : SourceSettings
  /-- whether update cycles are logged -/
  audit : Bool
  deriving DecidableEq, Repr

/-- What a caller may set over the settings file. The values are checked like those of the file. -/
structure Overrides where
  dataDir : Option Path
  outputDir : Json
  prune : Json
  audit : Json

/-- Overrides that leave everything as it is. -/
def Overrides.none : Overrides := ⟨.none, .null, .null, .null⟩

namespace Settings

/-- The name of the settings file in the project root. -/
def fileName : Text := "lightclass.toml".toList

/-- The directory of the project's own records unless it is set. -/
def defaultDataDir : Text := ".lightclass".toList

/-- The settings of a project whose root is known and about which nothing else is said. -/
def default (projectRoot : Path) : Settings where
  projectRoot := projectRoot
  dataDir := projectRoot.child defaultDataDir
  output := ⟨"bin/kotlin".toList, true⟩
  sources := ⟨["src".toList], [".kt".toList], ["**/.git/**".toList, "**/build/**".toList]⟩
  audit := true

/-- The output directory. -/
def outputRoot (s : Settings) : Path := s.projectRoot.join (.ofText s.output.dir)

/-- The file that update cycles are logged to. -/
def auditLog (s : Settings) : Path := s.dataDir.child "audit.jsonl".toList

/-- The settings as they are shown. -/
def toJson (s : Settings) : Json :=
  .obj
    [Json.field "project_root" (.str s.projectRoot.text),
     Json.field "data_dir" (.str s.dataDir.text),
     Json.field "output"
      (.obj [Json.field "dir" (.str s.output.dir), Json.field "prune_empty_dirs" (.bool s.output.prune)]),
     Json.field "sources"
      (.obj
        [Json.field "roots" (.ofTexts s.sources.roots),
         Json.field "include_extensions" (.ofTexts s.sources.extensions),
         Json.field "exclude_globs" (.ofTexts s.sources.excludes)]),
     Json.field "audit" (.obj [Json.field "enabled" (.bool s.audit)])]

/-! ## Errors -/

/-- Why a value is refused; each cause names the section or the field. -/
inductive Refusal where
  | noTable (name : Text)
  | noList (field : Text)
  | noText (field : Text)
  | notOnlyTexts (field : Text)
  | noBoolean (field : Text)
  | absolute (field : Text)
  | emptyDir (field : Text)
  | climbs (field : Text)
  | extension (field : Text)
  deriving DecidableEq, Repr

/-- The wording of a refusal. -/
def Refusal.message : Refusal → Text
  | .noTable s => "Config section '".toList ++ s ++ "' must be a table.".toList
  | .noList f => "Config field '".toList ++ f ++ "' must be a list of strings.".toList
  | .noText f => "Config field '".toList ++ f ++ "' must be a string.".toList
  | .notOnlyTexts f => "Config field '".toList ++ f ++ "' must contain only strings.".toList
  | .noBoolean f => "Config field '".toList ++ f ++ "' must be a boolean.".toList
  | .absolute f => "Config field '".toList ++ f ++ "' must be project-relative.".toList
  | .emptyDir f => "Config field '".toList ++ f ++ "' must not be empty.".toList
  | .climbs f => "Config field '".toList ++ f ++ "' must stay inside the project root.".toList
  | .extension f => "Config field '".toList ++ f ++ "' entries must look like '.kt'.".toList

/-! ## Values -/

/-- The items of a list of texts, as far as they are texts. -/
def onlyTexts (field : Text) : List Json → Except Refusal (List Text)
  | [] => .ok []
  | .str t :: rest => (onlyTexts field rest).map (t :: ·)
  | _ :: _ => .error (.notOnlyTexts field)

/-- A list of texts. -/
def texts (field : Text) : Json → Except Refusal (List Text)
  | .arr items => onlyTexts field items
  | _ => .error (.noList field)

/-- A boolean; the given one if the value is null or missing. -/
def boolean (field : Text) (default : Bool) : Option Json → Except Refusal Bool
  | none => .ok default
  | some .null => .ok default
  | some (.bool b) => .ok b
  | some _ => .error (.noBoolean field)

/-- A directory below the project root, as the text of its names. -/
def directoryOfText (field raw : Text) : Except Refusal Text :=
  let t := (raw.replaceChar '\\' '/').trim
  if t.startsWith ['/'] then .error (.absolute field)
  else
    let names := Path.namesIn t
    if names.isEmpty then .error (.emptyDir field)
    else if names.contains Path.upName then .error (.climbs field)
    else .ok (Text.join ['/'] names)

/-- A directory below the project root, given as a value. -/
def directory (field : Text) : Json → Except Refusal Text
  | .str raw => directoryOfText field raw
  | _ => .error (.noText field)

/-- Directories below the project root. -/
def directories (field : Text) : List Text → Except Refusal (List Text)
  | [] => .ok []
  | raw :: rest =>
    match directoryOfText field raw with
    | .error e => .error e
    | .ok d => (directories field rest).map (d :: ·)

/-- Suffixes of source files, in lower case: a dot and at least one more character. -/
def suffixes (field : Text) : List Text → Except Refusal (List Text)
  | [] => .ok []
  | t :: rest =>
    if t.startsWith ['.'] && 2 ≤ t.length then (suffixes field rest).map (t.lower :: ·)
    else .error (.extension field)

end Settings

end Provenance
