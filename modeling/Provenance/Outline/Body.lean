/-
The body of a declaration.

A header may run over several lines before its body opens, or may have no body
at all. The search below follows the header: it counts parentheses, stops at the
first brace outside them, and gives up at the end of a line unless the header
goes on. A header goes on after a line that ends with a mark that asks for more,
or before a line that begins with one.
-/
import Provenance.Outline.Braces
import Provenance.Text.Blank

set_option autoImplicit false

namespace Provenance.Outline

/-- What the rest of a header line shows. -/
inductive HeaderLine where
  /-- the body opens, that many characters into the line -/
  | opens (offset : Nat)
  /-- a closing brace: the header had no body -/
  | closes
  /-- the line ends with that many parentheses open -/
  | ends (depth : Nat)
  deriving DecidableEq, Repr

/-- Reads a header line from an offset on, with `depth` parentheses open. -/
def readHeaderLine : Nat → Nat → Text → HeaderLine
  | depth, _, [] => .ends depth
  | depth, offset, c :: rest =>
    if c = '(' then readHeaderLine (depth + 1) (offset + 1) rest
    else if c = ')' then readHeaderLine (depth - 1) (offset + 1) rest
    else if c = '{' ∧ depth = 0 then .opens offset
    else if c = '}' ∧ depth = 0 then .closes
    else readHeaderLine depth (offset + 1) rest

/-- The ends of a line after which a header goes on. -/
def openEnds : List Text := [[':'], [','], ['('], ['<']]

/-- The beginnings of a line before which a header goes on. -/
def openStarts : List Text := [[':'], [','], ['\x7b'], [')'], "where".toList]

/-- Whether a header goes on after a line whose header part is `part`: the part ends openly, or the
next line that is not blank begins so. -/
def headerGoesOn (part : Text) (following : List Text) : Bool :=
  openEnds.any (part.trimRight.endsWith ·) ||
    match following.find? (Text.trim · ≠ []) with
    | some next => openStarts.any (Text.startsWith next.trim ·)
    | none => false

/-- How many lines a header may take. -/
def headerLines : Nat := 50

/-- The line on which the body ends whose header goes through the given lines: `budget` lines may be
read, `depth` parentheses are open, and `part` is what belongs to the header of line number `line`,
from `offset` characters on. -/
def bodyEnd? (scan : BraceScan) :
    (budget depth line offset : Nat) → (part : Text) → (following : List Text) → Option Nat
  | 0, _, _, _, _, _ => none
  | budget + 1, depth, line, offset, part, following =>
    match readHeaderLine depth offset part with
    | .opens place => scan.endOf? line (place + 1)
    | .closes => none
    | .ends depth' =>
      if depth' = 0 ∧ headerGoesOn part following = false then none
      else match following with
        | [] => none
        | next :: later => bodyEnd? scan budget depth' (line + 1) 0 next later

end Provenance.Outline
