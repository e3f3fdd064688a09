/-
The sweep.

After an update has been published, files below the output directory that no
longer have a source are deleted, and the directories left empty are removed. A
call that fails is reported and does not stop the sweep.
-/
import Provenance.Update.Cycle
import Provenance.Update.Report

set_option autoImplicit false

namespace Provenance.Update

/-- The result of a call, or its error if it is a failed call. -/
def tolerate {α : Type} (act : Action Host α) : Action Host (Except IoError α) := do
  match ← act.attempt with
  | .ok a => return .ok a
  | .error f =>
    match f.cause with
    | .io e => return .error e
    | _ => throw f

/-- The key of a location below the project root. -/
def Layout.key (l : Layout) (p : Path) : Action Host Text :=
  Action.ofExcept .outside (p.key l.projectRoot)

/-- The keys of several locations. -/
def Layout.keys (l : Layout) : List Path → Action Host (List Text)
  | [] => return []
  | p :: ps => return (← l.key p) :: (← l.keys ps)

/-- Deletes those of some files that have no source in the entries: the keys deleted, and the
failures. -/
def sweepFiles (l : Layout) (entries : Entries) :
    List Path → Action Host (List Text × List SweepFailure)
  | [] => return ([], [])
  | file :: files => do
    let key ← l.key file
    if entries.sourcesOf key ≠ [] then sweepFiles l entries files
    else
      match ← tolerate (Store.delete file) with
      | .ok _ =>
        let (deleted, failures) ← sweepFiles l entries files
        return (key :: deleted, failures)
      | .error e =>
        let (deleted, failures) ← sweepFiles l entries files
        return (deleted, ⟨key, e.reason⟩ :: failures)

/-- Removes the empty directories below the output directory: their keys, and the failure. -/
def pruneDirs (l : Layout) : Action Host (List Text × List SweepFailure) := do
  match ← tolerate (Store.removeEmptyDirectories l.outputRoot) with
  | .ok dirs => return (← l.keys dirs, [])
  | .error e => return ([], [⟨← l.key l.outputRoot, e.reason⟩])

/-- Makes the output directory agree with the entries. -/
def sweep (l : Layout) (entries : Entries) : Action Host SweepResult := do
  match ← tolerate (Store.listFiles l.outputRoot) with
  | .error e => return ⟨[], [], [⟨← l.key l.outputRoot, e.reason⟩]⟩
  | .ok files =>
    let (deleted, failures) ← sweepFiles l entries files
    if l.prune then
      let (pruned, more) ← pruneDirs l
      return ⟨deleted, pruned, failures ++ more⟩
    else return ⟨deleted, [], failures⟩

end Provenance.Update
