/-
The command line's options.

A command is `sync`, which updates the ledger from a build's manifest, or
`outline`, which shows what sources declare. Options before the command are
about the project; what follows the command belongs to it.
-/
import Provenance.CommandLine.Arguments

set_option autoImplicit false

namespace Provenance.CommandLine

open Provenance.Arguments

/-- What is to be done. -/
inductive Command where
  /-- update from a manifest, with the paths of affected files -/
  | sync (manifest : Value) (affected : List Text)
  /-- show what the files at some paths declare -/
  | outline (paths : List Text)
  deriving DecidableEq, Repr

/-- A command, the project it is for, and what is set over the project's settings. -/
structure Options where
  projectRoot : Value
  dataDir : Option Value
  outputDir : Option Value
  prune : Option Bool
  audit : Option Bool
  command : Command
  deriving DecidableEq, Repr

/-- The values of an option that is on or off. -/
def switchValues : List Text := ["true".toList, "false".toList]

/-- The options about the project. -/
def projectOptions : List ValueOption :=
  [⟨"--project-root".toList, []⟩, ⟨"--data-dir".toList, []⟩, ⟨"--output-dir".toList, []⟩,
   ⟨"--prune-empty-dirs".toList, switchValues⟩, ⟨"--audit".toList, switchValues⟩]

/-- The options of `sync`. -/
def syncOptions : List ValueOption := [⟨"--manifest".toList, []⟩, ⟨"--affected".toList, []⟩]

/-- Reads the arguments of `sync`: the manifest has to be given, and there are no other values. The
second component tells whether everything was understood. -/
def readSync (args : List Text) : Except Stop (Command × Bool) := do
  let tokens ← tokensOf syncOptions args
  let (given, values, strange) ← readAll (tokens.length + 1) [] [] false tokens
  match lastGiven "--manifest".toList given with
  | some manifest =>
    return (.sync manifest (allGiven "--affected".toList given), values.isEmpty && !strange)
  | none => throw .misuse

/-- Reads the arguments of `outline`: at least one path. -/
def readOutline (args : List Text) : Except Stop (Command × Bool) := do
  let tokens ← tokensOf [] args
  let (_, paths, strange) ← readAll (tokens.length + 1) [] [] false tokens
  if paths.isEmpty then throw .misuse
  return (.outline paths, !strange)

/-- Reads a command and its arguments. -/
def readCommand (name : Text) (args : List Text) : Except Stop (Command × Bool) :=
  if name = "sync".toList then readSync args
  else if name = "outline".toList then readOutline args
  else .error .misuse

/-- The switch that an option sets. -/
def switch (given : Given) (name : String) : Option Bool :=
  (lastGiven name.toList given).map fun v => v = some "true".toList

/-- Reads the arguments of the program. -/
def readArguments (args : List Text) : Except Stop Options := do
  let tokens ← tokensOf projectOptions args
  let (given, strange, rest) ← readOptions [] false tokens
  match rest with
  | .value name :: _ =>
    let (command, understood) ← readCommand name (args.drop (args.length - rest.length + 1))
    if strange || !understood then throw .misuse
    return {
      projectRoot := (lastGiven "--project-root".toList given).getD (some ['.'])
      dataDir := lastGiven "--data-dir".toList given
      outputDir := lastGiven "--output-dir".toList given
      prune := switch given "--prune-empty-dirs"
      audit := switch given "--audit"
      command := command }
  | _ => throw .misuse

end Provenance.CommandLine
