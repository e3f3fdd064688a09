/-
JSON values.

The fields of an object keep the order in which they were first written, since
some answers depend on it; a field written again keeps its place and takes the
new value. Integers are unbounded. A number with a fraction or an exponent is
kept as it was written: nothing here computes with it.

The same type holds what a TOML document says, so that one set of checks reads
both.
-/
import Provenance.Text.Basic

set_option autoImplicit false

namespace Provenance

/-- A JSON value. -/
inductive Json where
  | null
  | bool (b : Bool)
  | int (n : Int)
  /-- a number that is no integer, as written -/
  | real (literal : Text)
  | str (t : Text)
  | arr (items : List Json)
  | obj (fields : List (Text × Json))
  deriving Repr, Inhabited

/-- The fields of an object, in order. -/
abbrev Fields := List (Text × Json)

namespace Fields

/-- The value of a field. -/
def get? (key : Text) : Fields → Option Json
  | [] => none
  | (k, v) :: rest => if k = key then some v else get? key rest

/-- Whether there is a field of that name. -/
def has (key : Text) (fs : Fields) : Bool := (fs.get? key).isSome

/-- Sets a field: in its place if there is one of that name, else at the end. -/
def put (key : Text) (value : Json) : Fields → Fields
  | [] => [(key, value)]
  | (k, v) :: rest => if k = key then (k, value) :: rest else (k, v) :: put key value rest

/-- The fields that result from writing pairs one after the other. -/
def ofPairs (pairs : List (Text × Json)) : Fields := pairs.foldl (fun fs kv => fs.put kv.1 kv.2) []

end Fields

namespace Json

/-- A field with a literal name. -/
def field (key : String) (value : Json) : Text × Json := (key.toList, value)

/-- A text or null. -/
def ofText? : Option Text → Json
  | none => .null
  | some t => .str t

/-- A list of texts. -/
def ofTexts (ts : List Text) : Json := .arr (ts.map .str)

/-- A natural number. -/
def ofNat (n : Nat) : Json := .int (Int.ofNat n)

/-- The value of a field of an object; nothing for any other value. -/
def get? (key : Text) : Json → Option Json
  | .obj fs => Fields.get? key fs
  | _ => none

/-- The text, if the value is one. -/
def text? : Json → Option Text
  | .str t => some t
  | _ => none

end Json

end Provenance
