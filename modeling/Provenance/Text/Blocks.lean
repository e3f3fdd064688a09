/-
Lines of a file that is read in blocks.

A file that may be long is not read at once. Its lines are handed out block by
block, so that whoever takes them has dealt with the first ones before the next
block is looked at, and a flaw in a block shows only then. From one block to the
next three things are kept: the bytes at the end of the block that may begin a
character, a carriage return that a line feed may follow, and the line that has
not ended yet. The position of a flaw counts from the first of the bytes kept.
-/
import Provenance.Text.Lines
import Provenance.Text.Utf8

set_option autoImplicit false

namespace Provenance.Blocks

/-! ## Blocks -/

/-- The number of bytes in a block. -/
def blockBytes : Nat := 8192

/-- The blocks of a file; the last one may be shorter than the others. -/
def split : Bytes → List Bytes
  | [] => []
  | b :: rest => (b :: rest.take (blockBytes - 1)) :: split (rest.drop (blockBytes - 1))
termination_by bytes => bytes.length
decreasing_by exact Nat.lt_succ_of_le (by rw [List.length_drop]; exact Nat.sub_le _ _)

/-! ## Between two blocks -/

/-- What is kept from one block to the next. -/
structure Kept where
  /-- bytes that may begin a character -/
  bytes : Bytes
  /-- whether the text ends with a carriage return, which is not part of the line kept -/
  hasReturn : Bool
  /-- the line that has not ended yet -/
  line : Text

/-- What is kept before the first block. -/
def Kept.nothing : Kept := ⟨[], false, []⟩

/-- The lines that end in a block, and what is kept after it. -/
def Kept.read (k : Kept) (block : Bytes) : Except Utf8.Flaw (List Text × Kept) :=
  match Utf8.decodePart (k.bytes ++ block) with
  | .error flaw => .error flaw
  | .ok ([], bytes) => .ok ([], { k with bytes := bytes })
  | .ok (decoded, bytes) =>
    let hasReturn := Text.endsWith decoded ['\r']
    let found := (if k.hasReturn then ['\r'] else []) ++ decoded
    let ended := Text.unifyBreaks (if hasReturn then found.dropLast else found)
    let lines := Text.splitOn '\n' (k.line ++ ended)
    .ok (lines.dropLast, ⟨bytes, hasReturn, lines.getLastD []⟩)

/-! ## Files -/

/-- The lines that a reader takes, without their breaks, and the flaw that ends them early. -/
structure Taken where
  lines : List Text
  flaw : Option Utf8.Flaw

/-- The last line of a file, which is empty if the file ends with a break. -/
def Kept.last (k : Kept) : Taken :=
  match Utf8.decode k.bytes with
  | .error flaw => ⟨[], some flaw⟩
  | .ok _ => ⟨[k.line], none⟩

/-- The lines of the blocks that follow. -/
def Kept.take : Kept → List Bytes → Taken
  | k, [] => k.last
  | k, block :: blocks =>
    match k.read block with
    | .error flaw => ⟨[], some flaw⟩
    | .ok (lines, k) =>
      let later := k.take blocks
      { later with lines := lines ++ later.lines }

/-- The lines of a file, up to a flaw. -/
def lines (content : Bytes) : Taken := Kept.nothing.take (split content)

end Provenance.Blocks
