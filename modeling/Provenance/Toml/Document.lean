/-
TOML documents.

A document is a sequence of lines that open a table, open the next table of an
array of tables, or set a key in the table opened last. It is read into fields
like those of a JSON object. Two sets of keys keep track of what may not be
said any more: a key in `explicit` names a table that has been opened for good,
and nothing can be added at or below a key in `frozen`, which holds an array or
an inline table.

A dotted key on a line makes tables too. They become explicit when the next
table is opened, and until then further lines may add to them.

Arrays and inline tables nest to a limited depth. An array takes two levels of
it, the brackets and the items; an inline table takes three, the braces, the
fields and their values.
-/
import Provenance.Toml.Scalar
import Provenance.Text.Lines

set_option autoImplicit false

namespace Provenance.Toml

/-- The parts of a dotted key. -/
abbrev Key := List Text

/-! ## Values -/

/-- Applies a change to the table that a key leads to, making the tables on the way that are
missing. With `arrays` an array on the way stands for its last table. -/
def changeAt (arrays : Bool) (change : Fields → Except Refusal Fields) :
    Key → Fields → Except Refusal Fields
  | [], table => change table
  | k :: ks, table =>
    match table.get? k with
    | none => (changeAt arrays change ks []).map fun inner => table.put k (.obj inner)
    | some (.obj inner) =>
      (changeAt arrays change ks inner).map fun inner => table.put k (.obj inner)
    | some (.arr items) =>
      match arrays, items.getLast? with
      | true, some (.obj inner) =>
        (changeAt arrays change ks inner).map fun inner =>
          table.put k (.arr (items.dropLast ++ [.obj inner]))
      | _, _ => .error .malformed
    | some _ => .error .malformed

/-- Sets a key that is not set yet. -/
def setNew (k : Text) (value : Json) (table : Fields) : Except Refusal Fields :=
  if table.has k then .error .malformed else .ok (table.put k value)

/-- Sets the last part of a dotted key in the table that the other parts lead to. -/
def setDotted (arrays : Bool) (key : Key) (value : Json) (table : Fields) : Except Refusal Fields :=
  match key.getLast? with
  | none => .error .malformed
  | some k => changeAt arrays (setNew k value) key.dropLast table

/-- Whether a value is an array or a table. -/
def isCompound : Json → Bool
  | .arr _ => true
  | .obj _ => true
  | _ => false

/-- Whether a key or one above it is in a set. -/
def coversKey (set : List Key) (key : Key) : Bool := set.any fun k => k.isPrefixOf key

/-- The levels that an array takes. -/
def arrayLevels : Nat := 2

/-- The levels that an inline table takes. -/
def tableLevels : Nat := 3

mutual

/-- The value that begins the text. `depth` is the number of levels that values may still nest. -/
def readValue : Nat → Nat → Text → Reading Json
  | 0, _, _ => .error .malformed
  | fuel + 1, depth, t =>
    match t with
    | '[' :: rest =>
      if depth < arrayLevels then .error .tooDeep
      else match skipGapsAndComments rest.length rest with
        | .error e => .error e
        | .ok (']' :: after) => .ok (.arr [], after)
        | .ok start =>
          (readItems fuel (depth - arrayLevels) start).map fun (items, r) => (.arr items, r)
    | '\x7b' :: rest =>
      if depth < tableLevels then .error .tooDeep
      else match skipGaps rest with
        | '\x7d' :: after => .ok (.obj [], after)
        | start =>
          (readInline fuel (depth - tableLevels) [] [] start).map fun (fields, r) =>
            (.obj fields, r)
    | _ => readScalar t

/-- The items of an array up to its closing bracket, of which there is at least one. -/
def readItems : Nat → Nat → Text → Reading (List Json)
  | 0, _, _ => .error .malformed
  | fuel + 1, depth, t =>
    match readValue fuel depth t with
    | .error e => .error e
    | .ok (item, rest) =>
      match skipGapsAndComments rest.length rest with
      | .error e => .error e
      | .ok (']' :: after) => .ok ([item], after)
      | .ok (',' :: later) =>
        match skipGapsAndComments later.length later with
        | .error e => .error e
        | .ok (']' :: after) => .ok ([item], after)
        | .ok start => (readItems fuel depth start).map fun (items, r) => (item :: items, r)
      | .ok _ => .error .malformed

/-- The fields of an inline table up to its closing brace, of which there is at least one more;
`frozen` holds the keys set so far to arrays and tables. -/
def readInline : Nat → Nat → List Key → Fields → Text → Reading Fields
  | 0, _, _, _, _ => .error .malformed
  | fuel + 1, depth, frozen, fields, t =>
    match readKey t.length t with
    | .error e => .error e
    | .ok (key, '=' :: beforeValue) =>
      match readValue fuel depth (skipGaps beforeValue) with
      | .error e => .error e
      | .ok (value, afterValue) =>
        if coversKey frozen key then .error .malformed
        else match setDotted false key value fields with
          | .error e => .error e
          | .ok fields =>
            match skipGaps afterValue with
            | '\x7d' :: after => .ok (fields, after)
            | ',' :: later =>
              readInline fuel depth (if isCompound value then key :: frozen else frozen) fields
                (skipGaps later)
            | _ => .error .malformed
    | .ok _ => .error .malformed

end

/-! ## Lines -/

/-- A document as far as it has been read. -/
structure Draft where
  fields : Fields
  /-- the table opened last -/
  table : Key
  /-- the tables opened for good -/
  explicit : List Key
  /-- the tables that become explicit when the next table is opened -/
  pending : List Key
  /-- the keys at and below which nothing can be added -/
  frozen : List Key

/-- The document before its first line. -/
def Draft.start : Draft := ⟨[], [], [], [], []⟩

/-- Makes the pending tables explicit. -/
def Draft.settle (d : Draft) : Draft := { d with explicit := d.pending ++ d.explicit, pending := [] }

/-- Opens a table. -/
def Draft.openTable (d : Draft) (key : Key) : Except Refusal Draft :=
  if d.explicit.contains key || coversKey d.frozen key then .error .malformed
  else (changeAt true .ok key d.fields).map fun fields =>
    { d with fields := fields, table := key, explicit := key :: d.explicit }

/-- Adds an empty table to the array that a key holds. -/
def appendTable (k : Text) (table : Fields) : Except Refusal Fields :=
  match table.get? k with
  | none => .ok (table.put k (.arr [.obj []]))
  | some (.arr items) => .ok (table.put k (.arr (items ++ [.obj []])))
  | some _ => .error .malformed

/-- Opens the next table of an array of tables. What was said of the one before is no longer held
against it. -/
def Draft.openNext (d : Draft) (key : Key) : Except Refusal Draft :=
  match key.getLast? with
  | none => .error .malformed
  | some k =>
    if coversKey d.frozen key then .error .malformed
    else (changeAt true (appendTable k) key.dropLast d.fields).map fun fields =>
      { d with
        fields := fields
        table := key
        explicit := key :: d.explicit.filter fun e => !key.isPrefixOf e
        frozen := d.frozen.filter fun e => !key.isPrefixOf e }

/-- The beginnings of a key that are shorter than it and not empty. -/
def properStarts (key : Key) : List Key :=
  (List.range (key.length - 1)).map fun n => key.take (n + 1)

/-- Sets a key in the table opened last. -/
def Draft.set (d : Draft) (key : Key) (value : Json) : Except Refusal Draft :=
  let inner := (properStarts key).map (d.table ++ ·)
  if inner.any d.explicit.contains || coversKey d.frozen (d.table ++ key.dropLast) then
    .error .malformed
  else match key.getLast? with
    | none => .error .malformed
    | some k =>
      (changeAt true (setNew k value) (d.table ++ key.dropLast) d.fields).map fun fields =>
        { d with
          fields := fields
          pending := inner ++ d.pending
          frozen := if isCompound value then (d.table ++ key) :: d.frozen else d.frozen }

/-- Reads a statement; the text does not begin with a blank, a line feed or a comment. -/
def readStatement (d : Draft) (t : Text) : Reading Draft :=
  match t with
  | '[' :: '[' :: rest =>
    match readKey t.length (skipGaps rest) with
    | .ok (key, ']' :: ']' :: after) => (d.settle.openNext key).map (·, after)
    | .ok _ => .error .malformed
    | .error e => .error e
  | '[' :: rest =>
    match readKey t.length (skipGaps rest) with
    | .ok (key, ']' :: after) => (d.settle.openTable key).map (·, after)
    | .ok _ => .error .malformed
    | .error e => .error e
  | _ =>
    match readKey t.length t with
    | .ok (key, '=' :: beforeValue) =>
      match readValue (2 * t.length) maxNesting (skipGaps beforeValue) with
      | .ok (value, after) => (d.set key value).map (·, after)
      | .error e => .error e
    | .ok _ => .error .malformed
    | .error e => .error e

/-- Reads the lines of a document; each takes at least one character. -/
def readLines : Nat → Draft → Text → Except Refusal Draft
  | 0, d, _ => .ok d
  | fuel + 1, d, t =>
    let statement : Reading Draft := match skipGaps t with
      | [] => .ok (d, [])
      | '\n' :: rest => .ok (d, '\n' :: rest)
      | '#' :: rest => .ok (d, '#' :: rest)
      | start => readStatement d start
    match statement with
    | .error e => .error e
    | .ok (d, rest) =>
      match skipComment (skipGaps rest) with
      | .error e => .error e
      | .ok [] => .ok d
      | .ok ('\n' :: later) => readLines fuel d later
      | .ok _ => .error .malformed

/-- Every carriage return that a line feed follows is left out. -/
def dropReturns : Text → Text
  | [] => []
  | '\r' :: '\n' :: rest => '\n' :: dropReturns rest
  | c :: rest => c :: dropReturns rest

/-- The fields of a document. -/
def read (t : Text) : Except Refusal Fields :=
  let t := dropReturns t
  (readLines (t.length + 1) .start t).map Draft.fields

end Provenance.Toml
