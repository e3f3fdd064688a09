/-
Incremental edits.

After an edit nothing is known of a build, only of the sources that were edited.
Every artifact that an affected source produces is taken to be stale: it is
created or touched, and recorded with that source alone. Entries of other
sources are not carried over.
-/
import Provenance.Update.Cycle

set_option autoImplicit false

namespace Provenance.Update

/-- The label of incremental edits. -/
def incrementalEdit : Text := "incremental_edit".toList

/-- What tells the class that a full name stands for; it may fail in a way of its own. -/
abbrev Resolver := Text → Except Cause (Option ClassName)

/-- The resolver of a binding. -/
def Resolver.ofBinding (b : Binding) : Resolver := fun name => .ok (b.resolve name)

/-- The location of the artifact of a class. -/
def classLocation (l : Layout) (c : ClassName) : Except Cause Path :=
  (Artifact.classFile l.outputRoot c.internalName).mapError .artifact

/-- The locations of the artifacts that some declarations produce: those that have a full name which
stands for a class. -/
def locationsOf (l : Layout) (resolve : Resolver) :
    List Outline.Declaration → Except Cause (List Path)
  | [] => .ok []
  | d :: ds =>
    match d.fullName with
    | none => locationsOf l resolve ds
    | some name => do
      match ← resolve name with
      | none => locationsOf l resolve ds
      | some c => return (← classLocation l c) :: (← locationsOf l resolve ds)

/-- The locations of the artifacts that a source produces. -/
def artifactLocations (l : Layout) (resolve : Resolver) (f : TrackedFile) :
    Action Cycle (List Path) := do
  match ← Cycle.onSources (SourceSet.unitOf · f) with
  | none => return []
  | some unit => Action.ofExcept id (locationsOf l resolve unit.topLevel)

/-- Brings one artifact of a source into the update. -/
def editArtifact (l : Layout) (f : TrackedFile) (location : Path) : Action Cycle Unit := do
  let a ← Action.ofExcept id (l.artifact location)
  if !(← Cycle.materialize a) then Cycle.touch a
  Cycle.record a [f.location]

/-- Brings one source into the update. -/
def editSource (l : Layout) (resolve : Resolver) (f : TrackedFile) : Action Cycle Unit := do
  (← artifactLocations l resolve f).forM (editArtifact l f)

/-- The steps of an incremental edit. -/
def editSteps (l : Layout) (resolve : Resolver) (affected : List Text) : Action Cycle Unit := do
  let files ← Cycle.onSources SourceSet.listed
  (files.filter fun f => affected.contains f.path).forM (editSource l resolve)

end Provenance.Update
