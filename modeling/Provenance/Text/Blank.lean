/-
White space, and the trims and splits that depend on it.

The class is the Unicode property White_Space together with the four
information separators U+001C to U+001F, twenty-nine characters in all. A zero
width space or a byte order mark does not belong to it.
-/
import Provenance.Text.Basic
import Provenance.Text.Ranges

set_option autoImplicit false

namespace Provenance

/-- The blank code points. -/
def blankRanges : CodeRanges :=
  [(0x9, 0xd), (0x1c, 0x20), (0x85, 0x85), (0xa0, 0xa0), (0x1680, 0x1680), (0x2000, 0x200a),
   (0x2028, 0x2029), (0x202f, 0x202f), (0x205f, 0x205f), (0x3000, 0x3000)]

/-- Whether a character is blank. -/
def isBlank (c : Char) : Bool := blankRanges.has c.toNat

namespace Text

/-- The text without blanks at its beginning. -/
def trimLeft (t : Text) : Text := t.dropWhile isBlank

/-- The text without blanks at its end. -/
def trimRight (t : Text) : Text := t.dropRightWhile isBlank

/-- The text without blanks at either end. -/
def trim (t : Text) : Text := t.trimLeft.trimRight

/-- The maximal runs of characters that are not blank, in order. -/
def words : Text → List Text
  | [] => []
  | c :: rest =>
    if isBlank c then words rest
    else match rest with
      | [] => [[c]]
      | d :: _ =>
        if isBlank d then [c] :: words rest
        else match words rest with
          | [] => [[c]]
          | w :: ws => (c :: w) :: ws

end Text

end Provenance
