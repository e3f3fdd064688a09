/-
Full rebuilds.

After a complete build the ledger is made anew from the build's outputs. An
artifact is touched when one of its sources is affected: one that the build
names, or one that the ledger named before, since a source that no longer
contributes is missing from the build. Every source that is looked at has to be
a source of the project.
-/
import Provenance.Update.Cycle

set_option autoImplicit false

namespace Provenance.Update

/-- The label of full rebuilds. -/
def fullRebuild : Text := "full_rebuild".toList

/-- Whether one of some locations is affected, by the keys of the affected files. The search ends at
the first that is; a location before it that is no source is an error. -/
def anyAffected (s : SourceSet) (affected : List Text) : List Path → Except Cause Bool
  | [] => .ok false
  | location :: rest =>
    match s.resolve? location.text with
    | none => .error (.untracked location)
    | some f => if affected.contains f.path then .ok true else anyAffected s affected rest

/-- Whether an artifact is affected through its sources in the build or through those recorded
before. -/
def isAffected (s : SourceSet) (affected : List Text) (sources previous : List Path) :
    Except Cause Bool :=
  match anyAffected s affected sources with
  | .ok false => anyAffected s affected previous
  | decided => decided

/-- Brings one output of a build into the update. -/
def rebuildOutput (l : Layout) (ledger : Ledger) (affected : List Text) (o : Output) :
    Action Cycle Unit := do
  let location ← Action.ofExcept .artifact (Artifact.locate l.outputRoot o.path)
  let a ← Action.ofExcept id (l.artifact location)
  let _ ← Cycle.materialize a
  let s := (← get).sources
  if ← Action.ofExcept id (isAffected s affected o.sources (ledger.sourcesOf a.key)) then
    Cycle.touch a
  Cycle.record a o.sources

/-- The steps of a full rebuild. -/
def rebuildSteps (l : Layout) (ledger : Ledger) (affected : List Text) (build : Build) :
    Action Cycle Unit :=
  build.forM (rebuildOutput l ledger affected)

end Provenance.Update
