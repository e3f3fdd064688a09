/-
Brace blocks.

Two views of the braces of a text. `scanBraces` pairs each closing brace with
the last one still open and reports the pairs with their lines and columns,
which are counted from one and where only a line feed starts a line.
`lineDepths` tells for each line of `Text.splitLines` how many braces are open
where it begins; a closing brace without an open one changes nothing.
-/
import Provenance.Text.Lines
import Provenance.Order

set_option autoImplicit false

namespace Provenance.Outline

/-! ## Blocks -/

/-- A pair of braces: where it opens and closes, and how many braces are open inside it. -/
structure Block where
  startLine : Nat
  startColumn : Nat
  endLine : Nat
  endColumn : Nat
  depth : Nat
  deriving DecidableEq, Repr

/-- The pairs of braces of a text, and how many braces have no partner. -/
structure BraceScan where
  blocks : List Block
  unmatchedClosing : Nat
  unclosedOpening : Nat
  deriving DecidableEq, Repr

/-- The scan of the rest of a text from a line and a column on, with the places of the braces that
are open (last first). Blocks come in the order in which they close. -/
def scanFrom : Nat → Nat → List (Nat × Nat) → Text → BraceScan
  | _, _, opened, [] => ⟨[], 0, opened.length⟩
  | line, column, opened, c :: rest =>
    if c = '\n' then scanFrom (line + 1) 1 opened rest
    else if c = '{' then scanFrom line (column + 1) ((line, column) :: opened) rest
    else if c = '}' then
      match opened with
      | [] =>
        let later := scanFrom line (column + 1) [] rest
        { later with unmatchedClosing := later.unmatchedClosing + 1 }
      | (startLine, startColumn) :: outer =>
        let later := scanFrom line (column + 1) outer rest
        { later with
          blocks := ⟨startLine, startColumn, line, column, outer.length + 1⟩ :: later.blocks }
    else scanFrom line (column + 1) opened rest

/-- The order of blocks: by their opening brace. -/
def Block.place (b : Block) : List Nat := [b.startLine, b.startColumn, b.depth]

/-- The pairs of braces of a text, in the order in which they open. -/
def scanBraces (t : Text) : BraceScan :=
  let scan := scanFrom 1 1 [] t
  { scan with blocks := sortOn Block.place scan.blocks }

/-- The line on which the block ends that opens at a line and a column. -/
def BraceScan.endOf? (s : BraceScan) (line column : Nat) : Option Nat :=
  (s.blocks.find? fun b => b.startLine = line ∧ b.startColumn = column).map Block.endLine

/-! ## Depths -/

/-- The number of open braces after a line. -/
def depthAfter (depth : Nat) (line : Text) : Nat :=
  line.foldl (fun d c => if c = '{' then d + 1 else if c = '}' then d - 1 else d) depth

/-- The depths at which lines begin, the first at `depth`. -/
def depthsFrom : Nat → List Text → List Nat
  | _, [] => []
  | depth, line :: lines => depth :: depthsFrom (depthAfter depth line) lines

/-- For each line of a text the number of braces open where it begins. -/
def lineDepths (t : Text) : List Nat := depthsFrom 0 t.splitLines

end Provenance.Outline
