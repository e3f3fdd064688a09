/-
Masking comments and strings.

Before braces are counted and declarations looked for, everything that is not
code is blanked: comments and string literals, with the markers that open and
close them, become spaces. Line breaks inside them stay, so that lines and
columns of what is left are those of the source.

Which markers count is a value, `MaskRules`. Where several markers could open at
the same place, line comments are tried first, then block comments, then
strings, and in each class the longest marker. Block comments do not nest. A
string whose closing marker is one character long does not end at a marker that
an odd number of escape characters stands directly before; a longer closing
marker ends a string wherever it stands.

The mask goes through the text once, from left to right. It carries the region
it is in, how many characters of a marker are still to be blanked, and how many
escape characters stand directly before.
-/
import Provenance.Text.Basic
import Provenance.Order

set_option autoImplicit false

namespace Provenance.Outline

/-! ## Rules -/

/-- The markers of comments and strings. -/
structure MaskRules where
  /-- what opens a comment that ends with its line -/
  lineComments : List Text
  /-- what opens and what closes a block comment -/
  blockComments : List (Text × Text)
  /-- what opens and closes a string -/
  strings : List Text
  /-- what keeps a one-character marker from closing a string -/
  escape : Text
  deriving DecidableEq, Repr

/-- The rules of Kotlin sources. -/
def MaskRules.kotlin : MaskRules where
  lineComments := [['/', '/']]
  blockComments := [(['/', '*'], ['*', '/'])]
  strings := [['"', '"', '"'], ['"'], ['\'']]
  escape := ['\\']

/-- Longest first; markers of one length keep their order. -/
def longestFirst {α : Type} (marker : α → Text) (xs : List α) : List α :=
  sortBy (fun a b => compare (marker b).length (marker a).length) xs

/-- The rules without empty markers, each class of markers in the order it is tried in. -/
def MaskRules.prepared (r : MaskRules) : MaskRules where
  lineComments := longestFirst id (r.lineComments.filter (· ≠ []))
  blockComments := longestFirst Prod.fst (r.blockComments.filter fun p => p.1 ≠ [] ∧ p.2 ≠ [])
  strings := longestFirst id (r.strings.filter (· ≠ []))
  escape := r.escape

/-! ## Regions -/

/-- What a place in the text belongs to. -/
inductive Region where
  | code
  | lineComment
  | blockComment (closing : Text)
  | string (closing : Text)
  deriving DecidableEq, Repr

/-- The marker that opens a region at the beginning of a text, with the region. -/
def MaskRules.opening? (r : MaskRules) (t : Text) : Option (Text × Region) :=
  match r.lineComments.find? t.startsWith with
  | some m => some (m, .lineComment)
  | none =>
    match r.blockComments.find? (fun p => t.startsWith p.1) with
    | some p => some (p.1, .blockComment p.2)
    | none => (r.strings.find? t.startsWith).map fun m => (m, .string m)

/-- Whether a marker closes a string when `run` escape characters stand directly before it. -/
def closesString (closing t : Text) (run : Nat) : Bool :=
  t.startsWith closing && (1 < closing.length || run % 2 = 0)

/-- A character of a comment or a string: blank, unless it is a line feed. -/
def blankExceptBreak (c : Char) : Char := if c = '\n' then c else ' '

/-! ## The mask -/

/-- The masked rest of a text: in `region`, with `skip` characters of a marker to blank before
anything else, and `run` escape characters directly before. -/
def maskFrom (r : MaskRules) : Region → Nat → Nat → Text → Text
  | _, _, _, [] => []
  | region, skip, run, c :: rest =>
    let run' := if [c] = r.escape then run + 1 else 0
    match skip with
    | k + 1 => ' ' :: maskFrom r region k run' rest
    | 0 =>
      match region with
      | .code =>
        match r.opening? (c :: rest) with
        | some (m, inside) => ' ' :: maskFrom r inside (m.length - 1) run' rest
        | none => c :: maskFrom r .code 0 run' rest
      | .lineComment =>
        if c = '\n' then c :: maskFrom r .code 0 run' rest
        else ' ' :: maskFrom r .lineComment 0 run' rest
      | .blockComment closing =>
        if Text.startsWith (c :: rest) closing then ' ' :: maskFrom r .code (closing.length - 1) run' rest
        else blankExceptBreak c :: maskFrom r (.blockComment closing) 0 run' rest
      | .string closing =>
        if closesString closing (c :: rest) run then
          ' ' :: maskFrom r .code (closing.length - 1) run' rest
        else blankExceptBreak c :: maskFrom r (.string closing) 0 run' rest

/-- The text with its comments and strings blanked. -/
def mask (rules : MaskRules) (t : Text) : Text := maskFrom rules.prepared .code 0 0 t

end Provenance.Outline
