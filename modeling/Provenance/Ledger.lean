/-
The ledger.

The ledger records for each artifact, by its key, the sources it was made from.
It is never changed entry by entry: an update builds all entries aside and
publishes them at once, and the generation counts the publications. The entries
keep the order in which they were recorded.
-/
import Provenance.Path.Basic

set_option autoImplicit false

namespace Provenance

/-- Artifact keys with the sources of each, in order; no key comes twice. -/
abbrev Entries := List (Text × List Path)

namespace Entries

/-- The sources recorded for a key; none for a key that is not recorded. -/
def sourcesOf (key : Text) : Entries → List Path
  | [] => []
  | (k, sources) :: rest => if k = key then sources else sourcesOf key rest

/-- Adds sources to those of a key, which is recorded at the end if it is new. -/
def record (key : Text) (sources : List Path) : Entries → Entries
  | [] => [(key, sources)]
  | (k, old) :: rest =>
    if k = key then (k, old ++ sources) :: rest else (k, old) :: record key sources rest

/-- Sets the sources of a key, which keeps its place if it is recorded. -/
def set (key : Text) (sources : List Path) : Entries → Entries
  | [] => [(key, sources)]
  | (k, old) :: rest => if k = key then (k, sources) :: rest else (k, old) :: set key sources rest

/-- The entries that result from setting pairs one after the other. -/
def ofPairs (pairs : List (Text × List Path)) : Entries :=
  pairs.foldl (fun entries p => entries.set p.1 p.2) []

/-- The keys in order. -/
def keys (entries : Entries) : List Text := entries.map Prod.fst

/-- How many sources are recorded for all keys together. -/
def sourceCount : Entries → Nat
  | [] => 0
  | (_, sources) :: rest => sources.length + sourceCount rest

end Entries

/-- The published entries and the number of publications so far. -/
structure Ledger where
  generation : Nat
  entries : Entries
  deriving DecidableEq, Repr

namespace Ledger

/-- The ledger before the first publication. -/
def empty : Ledger := ⟨0, []⟩

/-- Publishes entries in place of all others. -/
def publish (l : Ledger) (entries : Entries) : Ledger := ⟨l.generation + 1, entries⟩

/-- Publishes that nothing is recorded. -/
def clear (l : Ledger) : Ledger := l.publish []

/-- The sources of an artifact. -/
def sourcesOf (l : Ledger) (key : Text) : List Path := l.entries.sourcesOf key

end Ledger

end Provenance
