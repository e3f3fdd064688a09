/-
Running a command.

Each run opens the project anew, so it starts with an empty ledger. Its answer
is one JSON object, which tells whether it went well, and an exit status: zero
if it did, one if an update was refused or ended early, two if something the run
was given cannot be used. A failure of any other kind is not an answer.
-/
import Provenance.CommandLine.Options
import Provenance.Manifest
import Provenance.Project

set_option autoImplicit false

namespace Provenance.CommandLine

/-! ## Commands -/

/-- The path that an option was given. -/
def pathOf : Arguments.Value → Except Cause Path
  | some t => .ok (.ofText t)
  | none => .error .noPath

/-- The overrides that options set; the data directory is made absolute at once. An output directory
that is nothing is refused as one that is no text. -/
def overridesOf (d : Disk) (o : Options) : Except Cause Overrides := do
  let dataDir ← match o.dataDir with
    | none => .ok none
    | some given => do (d.absolute (← pathOf given)).map some
  return {
    dataDir := dataDir
    outputDir := (o.outputDir.map fun given => given.elim (.arr []) .str).getD .null
    prune := (o.prune.map Json.bool).getD .null
    audit := (o.audit.map Json.bool).getD .null }

/-- Updates the ledger from a manifest; the answer is the report. -/
def sync (manifest : Arguments.Value) (affected : List Text) : Action Session Json := do
  let s ← get
  let root := s.project.settings.projectRoot
  let path ← Action.ofExcept id (pathOf manifest)
  let build ← Action.ofExcept id (Build.load s.host.disk path root)
  return (← Session.rebuild build (affected.map .spelled)).toJson

/-- The units of the files at some paths, and the paths that are of no source file. -/
def unitsOf : List Text → Action Session (List Outline.SourceUnit × List Text)
  | [] => return ([], [])
  | raw :: rest => do
    let unit ← match (← get).project.sources.resolve? raw with
      | some f => Session.onSources (SourceSet.unitOf · f)
      | none => pure none
    let (units, unknown) ← unitsOf rest
    match unit with
    | some u => return (u :: units, unknown)
    | none => return (units, raw :: unknown)

/-- The keys of some locations. -/
def keysOf (l : Update.Layout) : List Path → Except Cause (List Text)
  | [] => .ok []
  | location :: rest =>
    match l.artifact location with
    | .error e => .error e
    | .ok a => (keysOf l rest).map (a.key :: ·)

/-- A declaration as an outline shows it. -/
def showDeclaration (d : Outline.Declaration) : Json :=
  .obj
    [Json.field "kind" (.str d.kind), Json.field "name" (.str d.name),
     Json.field "fq_name" (.ofText? d.fullName), Json.field "scope" (.str d.scope.label),
     Json.field "start_line" (.int d.startLine), Json.field "end_line" (.int d.endLine)]

/-- A unit as an outline shows it, with the artifacts that it would produce. -/
def showUnit (l : Update.Layout) (b : Binding) (u : Outline.SourceUnit) : Except Cause Json := do
  let locations ← Update.locationsOf l (.ofBinding b) u.topLevel
  let keys ← keysOf l locations
  return .obj
    [Json.field "path" (.str u.path), Json.field "package" (.ofText? u.package),
     Json.field "declarations" (.arr (u.declarations.map showDeclaration)),
     Json.field "artifacts" (.ofTexts keys)]

/-- Units as an outline shows them. -/
def showUnits (l : Update.Layout) (b : Binding) :
    List Outline.SourceUnit → Except Cause (List Json)
  | [] => .ok []
  | u :: us =>
    match showUnit l b u with
    | .error e => .error e
    | .ok shown => (showUnits l b us).map (shown :: ·)

/-- Shows what the files at some paths declare; the answer lists the files, and the paths that are
of no source file. -/
def outline (paths : List Text) : Action Session Json := do
  let (units, unknown) ← unitsOf paths
  let layout := (← get).project.layout
  let binding ← Action.ofExcept .className (Binding.declared units [])
  let files ← Action.ofExcept id (showUnits layout binding units)
  return .obj [Json.field "files" (.arr files), Json.field "unknown" (.ofTexts unknown)]

/-- Runs a command in a session. -/
def command : Command → Action Session Json
  | .sync manifest affected => sync manifest affected
  | .outline paths => outline paths

/-! ## Answers -/

/-- The code and the exit status of a failure, if it is one that a run answers. -/
def verdict : Cause → Option (String × Nat)
  | .artifact _ => some ("ARTIFACT_PATH_BLOCKED", 1)
  | .untracked _ => some ("UNTRACKED_SOURCE", 1)
  | .aborted _ => some ("UPDATE_ABORTED", 1)
  | .json (.tooDeep _) | .toml .tooDeep | .deepMaking | .deepSearch => none
  | .io _ | .settings _ | .manifest _ | .className _ | .contract _ | .outside _ | .encoding _
  | .json _ | .toml _ => some ("INVALID_INPUT", 2)
  | .crash _ | .linkLoop _ | .tracking _ | .noFields | .noPath => none

/-- The answer of a run that went well. -/
def success (result : Json) : Json :=
  .obj [Json.field "ok" (.bool true), Json.field "result" result, Json.field "error" .null]

/-- The answer of a run that did not. -/
def refusal (code : String) (message : Text) : Json :=
  .obj
    [Json.field "ok" (.bool false), Json.field "result" (.obj []),
     Json.field "error"
      (.obj [Json.field "code" (.str code.toList), Json.field "message" (.str message)])]

/-- Opens the project that options are for, and runs their command. -/
def runCommand (o : Options) : Action Host Json := do
  let overrides ← Action.ofExcept id (overridesOf (← get).disk o)
  let root ← Action.ofExcept id (pathOf o.projectRoot)
  let project ← Project.open root overrides
  fun host =>
    let (result, s) := (command o.command).runOn ⟨host, project⟩
    (result, s.host)

/-- What a run ends with. -/
inductive Outcome where
  /-- an answer and an exit status -/
  | answer (value : Json) (exit : Nat)
  /-- the arguments were not those of a run -/
  | usage (stop : Arguments.Stop)

/-- The exit status for arguments that ask for help or make no sense. -/
def usageStatus : Arguments.Stop → Nat
  | .help => 0
  | .misuse => 2

/-- Runs the program with the given arguments. -/
def run (args : List Text) : Action Host Outcome := do
  match readArguments args with
  | .error stop => return .usage stop
  | .ok options =>
    match ← (runCommand options).attempt with
    | .ok result => return .answer (success result) 0
    | .error f =>
      match verdict f.cause with
      | some (code, status) => return .answer (refusal code f.cause.message) status
      | none => throw f

end Provenance.CommandLine
