/-
Writing JSON.

A value is written on one line: a comma and a space between items, a colon and
a space after a field's name, and every character that is not visible ASCII or
a plain space escaped, so that a written value never holds a line break. Where the order of fields must
not depend on how the value was built, the fields are sorted by name first.
-/
import Provenance.Json.Basic
import Provenance.Order
import Provenance.Text.Hex

set_option autoImplicit false

namespace Provenance.Json

/-! ## Text -/

/-- The escape of one sixteen-bit unit. -/
def unitEscape (n : Nat) : Text := '\\' :: 'u' :: hexText 4 n

/-- A character inside a quoted text. Visible ASCII and the space stand for themselves, the quote and the
backslash excepted; a character beyond the basic plane is a pair of escapes. -/
def escapedChar (c : Char) : Text :=
  if c = '"' then ['\\', '"']
  else if c = '\\' then ['\\', '\\']
  else if c = '\n' then ['\\', 'n']
  else if c = '\r' then ['\\', 'r']
  else if c = '\t' then ['\\', 't']
  else if c = '\x0c' then ['\\', 'f']
  else if c = '\x08' then ['\\', 'b']
  else if 0x20 ≤ c.toNat ∧ c.toNat < 0x7F then [c]
  else if c.toNat < 0x10000 then unitEscape c.toNat
  else unitEscape (0xD800 + (c.toNat - 0x10000) / 0x400)
    ++ unitEscape (0xDC00 + (c.toNat - 0x10000) % 0x400)

/-- A text in double quotes. -/
def quotedText (t : Text) : Text := '"' :: t.flatMap escapedChar ++ ['"']

/-! ## Values -/

mutual

/-- The value on one line, fields in their order. -/
def render : Json → Text
  | .null => "null".toList
  | .bool true => "true".toList
  | .bool false => "false".toList
  | .int n => Text.ofInt n
  | .real literal => literal
  | .str t => quotedText t
  | .arr items => '[' :: Text.join [',', ' '] (renderItems items) ++ [']']
  | .obj fields => '{' :: Text.join [',', ' '] (renderFields fields) ++ ['}']

/-- The items of an array. -/
def renderItems : List Json → List Text
  | [] => []
  | item :: items => render item :: renderItems items

/-- The fields of an object. -/
def renderFields : List (Text × Json) → List Text
  | [] => []
  | f :: fields => renderField f :: renderFields fields

/-- A field: its name, a colon and a space, its value. -/
def renderField : Text × Json → Text
  | (key, value) => quotedText key ++ ':' :: ' ' :: render value

end

/-! ## Sorted fields -/

mutual

/-- The value with the fields of every object sorted by name. -/
def sortFields : Json → Json
  | .arr items => .arr (sortItems items)
  | .obj fields => .obj (sortOn Prod.fst (sortValues fields))
  | value => value

/-- The items of an array, each with its fields sorted. -/
def sortItems : List Json → List Json
  | [] => []
  | item :: items => sortFields item :: sortItems items

/-- The fields of an object in their order, each with the fields of its value sorted. -/
def sortValues : List (Text × Json) → List (Text × Json)
  | [] => []
  | f :: fields => sortValue f :: sortValues fields

/-- A field with the fields of its value sorted. -/
def sortValue : Text × Json → Text × Json
  | (key, value) => (key, sortFields value)

end

/-- The value on one line with sorted fields. -/
def renderSorted (j : Json) : Text := j.sortFields.render

end Provenance.Json
