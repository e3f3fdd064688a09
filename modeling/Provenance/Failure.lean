/-
Failures.

An action either succeeds or fails, and the state it leaves behind is kept in
both cases: what has been written to a disk stays written when a later step
fails. `Action σ α` is an action on a state `σ` with a result in `α`.

A failure has a cause and may carry notes about what else went wrong while it
was being handled. A cause is one of the errors of the parts of this library, or
a crash of a collaborator that is none of them.
-/
import Provenance.Artifact
import Provenance.Binding
import Provenance.Build
import Provenance.Disk.Error
import Provenance.Json.Reader
import Provenance.Path.Key
import Provenance.Settings.Basic
import Provenance.Toml.Scalar

set_option autoImplicit false

namespace Provenance

/-! ## Causes -/

/-- A change of the set of tracked files that contradicts it. -/
inductive TrackingError where
  | alreadyTracked (path : Text)
  | notSource (path : Text)
  | notTracked (path : Text)
  deriving DecidableEq, Repr

/-- The wording of the error. -/
def TrackingError.message : TrackingError → Text
  | .alreadyTracked path => "Source file is already tracked: ".toList ++ path
  | .notSource path => "Not a source file of this project: ".toList ++ path
  | .notTracked path => "Source file is not tracked: ".toList ++ path

/-- An update that a failed call has ended before it was published. -/
structure Abort where
  operation : Text
  /-- the path of the call, empty if it is not known -/
  path : Text
  reason : Text
  /-- what could not be undone, and why -/
  rollbackFailures : List Text
  deriving DecidableEq, Repr

/-- The wording of an abort. -/
def Abort.message (a : Abort) : Text :=
  a.operation ++ " aborted at '".toList ++ a.path ++ "': ".toList ++ a.reason

/-- Why an action failed. -/
inductive Cause where
  | io (e : IoError)
  /-- a collaborator failed in a way of its own -/
  | crash (message : Text)
  /-- a path that cannot be made absolute because a link leads to itself -/
  | linkLoop (path : Text)
  | artifact (e : Artifact.Refusal)
  /-- a recorded source that is no source of the project -/
  | untracked (location : Path)
  | aborted (e : Abort)
  | tracking (e : TrackingError)
  | settings (e : Settings.Refusal)
  | manifest (e : ManifestError)
  | className (e : ClassNameError)
  | contract (e : Outline.Breach)
  | outside (e : Outside)
  | encoding (e : Utf8.Flaw)
  | json (e : Json.Refusal)
  | toml (e : Toml.Refusal)
  /-- more missing directories above one another than can be made at once -/
  | deepMaking
  /-- directories below one another that are too deep to be looked through -/
  | deepSearch
  /-- a record of the log that is asked for its time and has no fields -/
  | noFields
  /-- something that is no text is asked for the path it spells -/
  | noPath
  deriving DecidableEq, Repr

/-- The wording for an integer that is too long. -/
def longIntegerMessage (digits : Nat) : Text :=
  "Exceeds the limit (".toList ++ Text.ofNat Json.maxIntegerDigits
    ++ " digits) for integer string conversion: value has ".toList ++ Text.ofNat digits
    ++ " digits; use sys.set_int_max_str_digits() to increase the limit".toList

/-- The wording for things that nest too deep, with what was going on at the depth. -/
def nestingMessage (activity : Text) : Text := "maximum recursion depth exceeded".toList ++ activity

/-- What a reader of JSON does at a value that begins too deep. -/
def nestedActivity : Json.Nested → Text
  | .array => " while decoding a JSON array from a unicode string".toList
  | .object => " while decoding a JSON object from a unicode string".toList

/-- The cause in words. Where a document does not follow its grammar the words only say so. -/
def Cause.message : Cause → Text
  | .io e => e.message
  | .crash message => message
  | .linkLoop path => "Symlink loop from ".toList ++ path.quoted
  | .artifact e => e.reason
  | .untracked location =>
    "Source location is not a tracked project file: ".toList ++ location.text
  | .aborted e => e.message
  | .tracking e => e.message
  | .settings e => e.message
  | .manifest e => e.message
  | .className e => e.message
  | .contract e => e.message
  | .outside e => e.message
  | .encoding e => e.message
  | .json .malformed => "<json syntax error>".toList
  | .json (.longInteger n) => longIntegerMessage n
  | .json (.tooDeep value) => nestingMessage (nestedActivity value)
  | .toml .malformed => "<toml syntax error>".toList
  | .toml (.longInteger n) => longIntegerMessage n
  | .toml .tooDeep => nestingMessage []
  | .deepMaking => nestingMessage " while calling a Python object".toList
  | .deepSearch => nestingMessage []
  | .noFields => []
  | .noPath => []

/-- A cause, and notes on what went wrong besides. -/
structure Failure where
  cause : Cause
  notes : List Text
  deriving DecidableEq, Repr

/-! ## Actions -/

/-- An action on a state, which it leaves changed whether it succeeds or fails. -/
abbrev Action (σ α : Type) : Type := ExceptT Failure (StateM σ) α

namespace Action

variable {σ τ ε α : Type}

/-- Fails. -/
def fail (cause : Cause) : Action σ α := throw ⟨cause, []⟩

/-- The result of a computation without effects, its error as a cause. -/
def ofExcept (toCause : ε → Cause) : Except ε α → Action σ α
  | .ok a => pure a
  | .error e => fail (toCause e)

/-- Runs an action: its result and the state it leaves. -/
def runOn (act : Action σ α) (s : σ) : Except Failure α × σ := (ExceptT.run act).run s

/-- An action on a part of a state. -/
def within (part : τ → σ) (setPart : σ → τ → τ) (act : Action σ α) : Action τ α :=
  fun t =>
    let (result, s) := act.runOn (part t)
    (result, setPart s t)

/-- The result of an action, be it a failure. -/
def attempt (act : Action σ α) : Action σ (Except Failure α) := fun s =>
  let (result, s) := act.runOn s
  (.ok result, s)

end Action

end Provenance
