/-
Lines of a text.

Two notions of a line are in use and must not be mixed up. `splitLines` breaks
at every character Unicode counts as a line boundary, and takes a carriage
return with the line feed after it as one break. `unifyBreaks` knows only the
three conventions of text files (CRLF, CR, LF) and turns each into a line feed.
-/
import Provenance.Text.Basic

set_option autoImplicit false

namespace Provenance

/-- The characters that end a line: line feed, vertical tab, form feed, carriage return, three
information separators, next line, line separator and paragraph separator. -/
def isLineBreak (c : Char) : Bool :=
  c = '\n' || c = '\x0b' || c = '\x0c' || c = '\r' || c = '\x1c' || c = '\x1d' || c = '\x1e'
    || c = '\u0085' || c = '\u2028' || c = '\u2029'

namespace Text

/-- The lines of a text without their breaks. A break at the very end does not open another line, so
the empty text has no line at all. -/
def splitLines : Text → List Text
  | [] => []
  | '\r' :: '\n' :: rest => [] :: splitLines rest
  | c :: rest =>
    if isLineBreak c then [] :: splitLines rest
    else match splitLines rest with
      | [] => [[c]]
      | line :: lines => (c :: line) :: lines

/-- Every line break of a text file (CRLF, lone CR, LF) as one line feed. -/
def unifyBreaks : Text → Text
  | [] => []
  | '\r' :: '\n' :: rest => '\n' :: unifyBreaks rest
  | c :: rest => (if c = '\r' then '\n' else c) :: unifyBreaks rest

end Text

end Provenance
