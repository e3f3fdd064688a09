/-
Text as a list of code points.

Everything this library reads or writes is text: source files, paths, class
names, JSON and TOML documents, messages. Columns, lengths and orders are all
counted in code points, so a text is the list of its characters and nothing
else. Every function here is structural recursion over that list, or a short
composition of list functions, so that it computes inside a proof as well as
it runs.

The order on texts is the order core gives to lists of characters: the code
points decide, first difference first.
-/

set_option autoImplicit false

namespace Provenance

/-- A text is the list of its code points. -/
abbrev Text := List Char

namespace Text

/-! ## Literals and numbers -/

/-- The decimal digits of a natural number, without leading zeros. -/
def ofNat (n : Nat) : Text := Nat.toDigits 10 n

/-- The decimal text of an integer: a minus sign and the digits of the magnitude. -/
def ofInt : Int → Text
  | .ofNat n => ofNat n
  | .negSucc n => '-' :: ofNat (n + 1)

/-- The text padded on the left with zeros to at least `width` characters. -/
def zeroPadded (width : Nat) (t : Text) : Text :=
  List.replicate (width - t.length) '0' ++ t

/-! ## Beginnings and ends -/

/-- Whether `t` begins with `p`. -/
def startsWith (t p : Text) : Bool := p.isPrefixOf t

/-- Whether `t` ends with `s`. -/
def endsWith (t s : Text) : Bool := s.isSuffixOf t

/-- What follows `p` at the beginning of `t`, if `t` begins with `p`. -/
def after? : Text → Text → Option Text
  | [], t => some t
  | _ :: _, [] => none
  | p :: ps, c :: t => if p = c then after? ps t else none

/-! ## Cutting and joining -/

/-- The pieces between the occurrences of `sep`; there is one piece more than there are
separators, so the empty text has one empty piece. -/
def splitOn (sep : Char) : Text → List Text
  | [] => [[]]
  | c :: rest =>
    if c = sep then [] :: splitOn sep rest
    else match splitOn sep rest with
      | [] => [[c]]
      | piece :: pieces => (c :: piece) :: pieces

/-- The texts joined with `sep` between neighbours. -/
def join (sep : Text) (ts : List Text) : Text := sep.intercalate ts

/-- Every occurrence of the character `old` replaced by `new`. -/
def replaceChar (old new : Char) (t : Text) : Text := t.map fun c => if c = old then new else c

/-- Drops from the end the longest run of characters that satisfy `p`. -/
def dropRightWhile (p : Char → Bool) (t : Text) : Text := (t.reverse.dropWhile p).reverse

/-- The longest part free of `sep` at the end of the text, with what stands before the last `sep`;
`none` when `sep` does not occur. -/
def splitAtLast (sep : Char) (t : Text) : Option (Text × Text) :=
  match t.reverse.dropWhile (· ≠ sep) with
  | [] => none
  | _ :: before => some (before.reverse, (t.reverse.takeWhile (· ≠ sep)).reverse)

end Text

end Provenance
