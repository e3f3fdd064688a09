/-
Reports of updates.

A report says what an update did: which artifacts it created or touched, and
what the sweep after it removed or failed to remove. Its summary keeps the
counts, and names only the artifacts that could not be removed.
-/
import Provenance.Json.Basic
import Provenance.Order

set_option autoImplicit false

namespace Provenance

/-- Something the sweep could not remove, and why. -/
structure SweepFailure where
  key : Text
  reason : Text
  deriving DecidableEq, Repr

/-- What a sweep removed and what it could not. -/
structure SweepResult where
  deleted : List Text
  prunedDirs : List Text
  failures : List SweepFailure
  deriving DecidableEq, Repr

/-- What an update did. -/
structure Report where
  operation : Text
  cycleId : Text
  artifactCount : Int
  /-- the artifacts that were not there before, in the order of their creation -/
  created : List Text
  /-- the artifacts whose time was moved, in the order of the first touch -/
  touched : List Text
  sweep : SweepResult
  durationMs : Int
  timestamp : Text
  deriving DecidableEq, Repr

namespace Report

/-- The artifacts that were created or touched, each once and sorted. -/
def refreshed (r : Report) : List Text := sorted (distinct (r.created ++ r.touched))

/-- The report as it is shown. -/
def toJson (r : Report) : Json :=
  .obj
    [Json.field "operation" (.str r.operation),
     Json.field "cycle_id" (.str r.cycleId),
     Json.field "artifact_count" (.int r.artifactCount),
     Json.field "created" (.ofTexts r.created),
     Json.field "touched" (.ofTexts r.touched),
     Json.field "deleted" (.ofTexts r.sweep.deleted),
     Json.field "pruned_dirs" (.ofTexts r.sweep.prunedDirs),
     Json.field "sweep_failures"
      (.arr (r.sweep.failures.map fun f =>
        .obj [Json.field "key" (.str f.key), Json.field "reason" (.str f.reason)])),
     Json.field "duration_ms" (.int r.durationMs),
     Json.field "timestamp" (.str r.timestamp)]

/-- The fields of the summary: counts, and the keys of what the sweep could not remove. -/
def summary (r : Report) : Fields :=
  [Json.field "artifact_count" (.int r.artifactCount),
   Json.field "created" (.ofNat r.created.length),
   Json.field "touched" (.ofNat r.touched.length),
   Json.field "deleted" (.ofNat r.sweep.deleted.length),
   Json.field "sweep_failures" (.ofNat r.sweep.failures.length),
   Json.field "sweep_failure_keys" (.ofTexts (r.sweep.failures.map SweepFailure.key)),
   Json.field "duration_ms" (.int r.durationMs)]

end Report

end Provenance
