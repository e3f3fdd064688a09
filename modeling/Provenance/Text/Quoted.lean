/-
Quoted text in messages.

A message that names a path or a name puts it in quotes so that its ends and
its invisible characters can be seen. Single quotes are used, unless the text
holds a single quote and no double quote. A backslash and the quote in use are
escaped, and a character without a visible form is shown by number.
-/
import Provenance.Text.Hex
import Provenance.Text.Printable

set_option autoImplicit false

namespace Provenance.Text

/-- One character between the quotes `q`. -/
def quotedChar (q c : Char) : Text :=
  if c = q || c = '\\' then ['\\', c]
  else if c = '\n' then ['\\', 'n']
  else if c = '\r' then ['\\', 'r']
  else if c = '\t' then ['\\', 't']
  else if isPrintable c then [c]
  else if c.toNat < 0x100 then '\\' :: 'x' :: hexText 2 c.toNat
  else if c.toNat < 0x10000 then '\\' :: 'u' :: hexText 4 c.toNat
  else '\\' :: 'U' :: hexText 8 c.toNat

/-- The quote that a text is put in. -/
def quoteFor (t : Text) : Char := if t.contains '\'' && !t.contains '"' then '"' else '\''

/-- The text in quotes. -/
def quoted (t : Text) : Text := [quoteFor t] ++ t.flatMap (quotedChar (quoteFor t)) ++ [quoteFor t]

end Provenance.Text
