/-
Keys and scalar values of TOML.

Texts come in four forms: basic and literal, each on one line or over several.
Numbers are decimal, hexadecimal, octal or binary integers, or floats; dates and
times have forms of their own. What is no integer, boolean or text is kept as it
is written, since no setting is a date or a float: it only has to be refused as
what it is.

Every reader here takes the text from its place on and returns what it read and
the rest.
-/
import Provenance.Json.Reader

set_option autoImplicit false

namespace Provenance.Toml

/-- Why a document is refused. -/
inductive Refusal where
  /-- it does not follow the grammar, or says something twice -/
  | malformed
  /-- a decimal integer of that many digits -/
  | longInteger (digits : Nat)
  /-- arrays and inline tables nest too deep -/
  | tooDeep
  deriving DecidableEq, Repr

/-- A step of a reader: what was read and the rest of the text. -/
abbrev Reading (α : Type) := Except Refusal (α × Text)

/-! ## Blanks and comments -/

/-- The blanks within a line. -/
def isGap (c : Char) : Bool := c = ' ' || c = '\t'

/-- The blanks within a line, and line feeds. -/
def isGapOrBreak (c : Char) : Bool := isGap c || c = '\n'

/-- The text after the blanks at its beginning. -/
def skipGaps (t : Text) : Text := t.dropWhile isGap

/-- The control characters, none of which may stand in a text or a comment except as its form
allows. -/
def isControl (c : Char) : Bool := c.toNat < 0x20 || c.toNat = 0x7F

/-- The control characters that may not stand on a line. -/
def isBadInLine (c : Char) : Bool := isControl c && c ≠ '\t'

/-- The control characters that may not stand in a text over several lines. -/
def isBadInLines (c : Char) : Bool := isControl c && c ≠ '\t' && c ≠ '\n'

/-- The text after a comment, which ends before the line feed; the text itself if it does not begin
with one. -/
def skipComment : Text → Except Refusal Text
  | '#' :: rest =>
    if (rest.takeWhile (· ≠ '\n')).any isBadInLine then .error .malformed
    else .ok (rest.dropWhile (· ≠ '\n'))
  | t => .ok t

/-- The text after blanks, line feeds and comments. -/
def skipGapsAndComments : Nat → Text → Except Refusal Text
  | 0, t => .ok t
  | fuel + 1, t =>
    match t.dropWhile isGapOrBreak with
    | '#' :: rest =>
      match skipComment ('#' :: rest) with
      | .error e => .error e
      | .ok after => skipGapsAndComments fuel after
    | after => .ok after

/-! ## Texts -/

/-- The character of `count` hexadecimal digits. -/
def readCodePoint (count : Nat) (t : Text) : Reading Char :=
  let digits := t.take count
  if digits.length = count then
    match hexNumber? digits with
    | some n =>
      if n < 0xD800 ∨ (0xE000 ≤ n ∧ n < 0x110000) then .ok (Char.ofNat n, t.drop count)
      else .error .malformed
    | none => .error .malformed
  else .error .malformed

/-- What a character stands for after a backslash. -/
def simpleEscape : Char → Option Char
  | 'b' => some '\x08'
  | 't' => some '\t'
  | 'n' => some '\n'
  | 'f' => some '\x0c'
  | 'r' => some '\r'
  | '"' => some '"'
  | '\\' => some '\\'
  | _ => none

/-- What an escape stands for; the backslash has been read. -/
def readEscape : Text → Reading Char
  | 'u' :: rest => readCodePoint 4 rest
  | 'U' :: rest => readCodePoint 8 rest
  | c :: rest =>
    match simpleEscape c with
    | some d => .ok (d, rest)
    | none => .error .malformed
  | [] => .error .malformed

/-- The text after a backslash at the end of a line: the line's last blanks, the line feed and all
blanks and line feeds after it are skipped. Nothing if the backslash does not end its line; at the
end of the document it need not. -/
def skipLineEnd? : Text → Option (Except Refusal Text)
  | '\n' :: rest => some (.ok (rest.dropWhile isGapOrBreak))
  | c :: rest =>
    if isGap c then
      match skipGaps rest with
      | [] => some (.ok [])
      | '\n' :: after => some (.ok (after.dropWhile isGapOrBreak))
      | _ => some (.error .malformed)
    else none
  | [] => none

/-- A basic text up to its closing quote; the opening quote has been read. -/
def readBasic : Nat → Text → Reading Text
  | 0, _ => .error .malformed
  | _, [] => .error .malformed
  | fuel + 1, c :: rest =>
    if c = '"' then .ok ([], rest)
    else if c = '\\' then
      match readEscape rest with
      | .error e => .error e
      | .ok (d, after) => (readBasic fuel after).map fun (t, r) => (d :: t, r)
    else if isBadInLine c then .error .malformed
    else (readBasic fuel rest).map fun (t, r) => (c :: t, r)

/-- A basic text over several lines up to its three closing quotes; the opening ones have been
read. -/
def readBasicLines : Nat → Text → Reading Text
  | 0, _ => .error .malformed
  | _, [] => .error .malformed
  | _, '"' :: '"' :: '"' :: rest => .ok ([], rest)
  | fuel + 1, c :: rest =>
    if c = '\\' then
      match skipLineEnd? rest with
      | some (.ok after) => readBasicLines fuel after
      | some (.error e) => .error e
      | none =>
        match readEscape rest with
        | .error e => .error e
        | .ok (d, after) => (readBasicLines fuel after).map fun (t, r) => (d :: t, r)
    else if isBadInLines c then .error .malformed
    else (readBasicLines fuel rest).map fun (t, r) => (c :: t, r)

/-- A literal text up to its closing quote; the opening quote has been read. -/
def readLiteral (t : Text) : Reading Text :=
  let body := t.takeWhile (· ≠ '\'')
  match t.dropWhile (· ≠ '\'') with
  | [] => .error .malformed
  | _ :: rest => if body.any isBadInLine then .error .malformed else .ok (body, rest)

/-- A literal text over several lines up to its three closing quotes; the opening ones have been
read. -/
def readLiteralLines : Text → Reading Text
  | [] => .error .malformed
  | '\'' :: '\'' :: '\'' :: rest => .ok ([], rest)
  | c :: rest =>
    if isBadInLines c then .error .malformed
    else (readLiteralLines rest).map fun (t, r) => (c :: t, r)

/-- A text over several lines does not keep a line feed at its very beginning. -/
def skipFirstBreak : Text → Text
  | '\n' :: rest => rest
  | t => t

/-- Up to two more quotes right after the closing ones belong to the text. -/
def takeExtraQuotes (q : Char) (t rest : Text) : Text × Text :=
  match rest with
  | c :: d :: after =>
    if c = q && d = q then (t ++ [q, q], after)
    else if c = q then (t ++ [q], d :: after) else (t, rest)
  | [c] => if c = q then (t ++ [q], []) else (t, rest)
  | [] => (t, rest)

/-- A text in any of the four forms, if one begins here. -/
def readText? (t : Text) : Option (Reading Text) :=
  match t with
  | '"' :: '"' :: '"' :: rest =>
    some ((readBasicLines t.length (skipFirstBreak rest)).map fun (s, r) => takeExtraQuotes '"' s r)
  | '"' :: rest => some (readBasic t.length rest)
  | '\'' :: '\'' :: '\'' :: rest =>
    some ((readLiteralLines (skipFirstBreak rest)).map fun (s, r) => takeExtraQuotes '\'' s r)
  | '\'' :: rest => some (readLiteral rest)
  | _ => none

/-! ## Keys -/

/-- The characters of a bare key. -/
def isBareKeyChar (c : Char) : Bool :=
  ('A' ≤ c && c ≤ 'Z') || ('a' ≤ c && c ≤ 'z') || ('0' ≤ c && c ≤ '9') || c = '-' || c = '_'

/-- One part of a key: bare, or a text on one line. -/
def readKeyPart (t : Text) : Reading Text :=
  match t with
  | '"' :: rest => readBasic t.length rest
  | '\'' :: rest => readLiteral rest
  | _ =>
    match t.takeWhile isBareKeyChar with
    | [] => .error .malformed
    | part => .ok (part, t.dropWhile isBareKeyChar)

/-- A key, its parts separated by dots; blanks may stand around the dots and after the key. -/
def readKey : Nat → Text → Reading (List Text)
  | 0, _ => .error .malformed
  | fuel + 1, t =>
    match readKeyPart t with
    | .error e => .error e
    | .ok (part, afterPart) =>
      match skipGaps afterPart with
      | '.' :: rest => (readKey fuel (skipGaps rest)).map fun (parts, r) => (part :: parts, r)
      | rest => .ok ([part], rest)

/-! ## Numbers -/

/-- The digits at the beginning of a text, with a single underscore allowed between two of them: the
digits, and what was read. -/
def takeGrouped (isDigit : Char → Bool) : Text → Text × Text
  | [] => ([], [])
  | c :: rest =>
    if isDigit c then
      let (digits, after) := takeGrouped isDigit rest
      (c :: digits, after)
    else if c = '_' then
      match rest with
      | d :: _ =>
        if isDigit d then takeGrouped isDigit rest else ([], c :: rest)
      | [] => ([], c :: rest)
    else ([], c :: rest)

/-- The grouped digits at the beginning of a text; the first character has to be a digit. -/
def takeDigits? (isDigit : Char → Bool) : Text → Option (Text × Text)
  | [] => none
  | c :: rest => if isDigit c then some (takeGrouped isDigit (c :: rest)) else none

/-- The value of digits in a base. -/
def valueIn (base : Nat) (digits : Text) : Nat :=
  digits.foldl (fun n c => n * base + (hexValue? c).getD 0) 0

/-- The bases that a letter after a zero selects. -/
def baseOf : Char → Option Nat
  | 'x' => some 16
  | 'o' => some 8
  | 'b' => some 2
  | _ => none

/-- Whether a character is a digit in a base. -/
def isDigitIn (base : Nat) (c : Char) : Bool :=
  match hexValue? c with
  | some v => v < base
  | none => false

/-- An integer in a base other than ten, if one begins here. -/
def readBased? : Text → Option (Json × Text)
  | '0' :: letter :: rest => do
    let base ← baseOf letter
    let (digits, after) ← takeDigits? (isDigitIn base) rest
    return (.int (Int.ofNat (valueIn base digits)), after)
  | _ => none

/-- The fraction at the beginning of a text, if it has one. -/
def takeFraction : Text → Text × Text
  | '.' :: rest =>
    match takeDigits? Json.isDigit rest with
    | some (digits, after) => ('.' :: digits, after)
    | none => ([], '.' :: rest)
  | t => ([], t)

/-- The exponent at the beginning of a text, if it has one. -/
def takeExponent (t : Text) : Text × Text :=
  match t with
  | c :: rest =>
    if c = 'e' || c = 'E' then
      let (sign, unsigned) := match rest with
        | '+' :: r => (['+'], r)
        | '-' :: r => (['-'], r)
        | r => ([], r)
      match takeDigits? Json.isDigit unsigned with
      | some (digits, after) => (c :: sign ++ digits, after)
      | none => ([], t)
    else ([], t)
  | [] => ([], [])

/-- A decimal number, if one begins here. A zero is not followed by more digits. -/
def readDecimal? (t : Text) : Option (Reading Json) :=
  let (negative, unsigned) := match t with
    | '-' :: r => (true, r)
    | '+' :: r => (false, r)
    | _ => (false, t)
  let whole := match unsigned with
    | '0' :: r => some (['0'], r)
    | _ => takeDigits? Json.isDigit unsigned
  whole.map fun (digits, afterWhole) =>
    let (fraction, afterFraction) := takeFraction afterWhole
    let (exponent, rest) := takeExponent afterFraction
    match fraction ++ exponent with
    | [] =>
      if Json.maxIntegerDigits < digits.length then .error (.longInteger digits.length)
      else
        let n : Int := Int.ofNat (Json.digitsValue digits)
        .ok (.int (if negative then -n else n), afterWhole)
    | tail => .ok (.real ((if negative then ['-'] else []) ++ digits ++ tail), rest)

/-! ## Dates and times -/

/-- A number of `count` digits and what follows it. -/
def takeNumber? (count : Nat) (t : Text) : Option (Nat × Text) :=
  let digits := t.take count
  if digits.length = count && digits.all Json.isDigit then
    some (Json.digitsValue digits, t.drop count)
  else none

/-- A number of two digits between two bounds, after a mark. -/
def takeField? (mark : Option Char) (low high : Nat) (t : Text) : Option (Nat × Text) := do
  let t ← match mark, t with
    | none, _ => some t
    | some m, c :: rest => if c = m then some rest else none
    | some _, [] => none
  let (n, rest) ← takeNumber? 2 t
  if low ≤ n ∧ n ≤ high then some (n, rest) else none

/-- What follows the time of day at the beginning of a text. -/
def afterTime? (t : Text) : Option Text := do
  let (_, t) ← takeField? none 0 23 t
  let (_, t) ← takeField? (some ':') 0 59 t
  let (_, t) ← takeField? (some ':') 0 59 t
  match t with
  | '.' :: d :: rest => if Json.isDigit d then some (rest.dropWhile Json.isDigit) else some t
  | _ => some t

/-- What follows the offset at the beginning of a text, or the text itself. -/
def afterOffset (t : Text) : Text :=
  match t with
  | c :: rest =>
    if c = 'Z' || c = 'z' then rest
    else if c = '+' || c = '-' then
      ((takeField? none 0 23 rest).bind fun (_, r) =>
        (takeField? (some ':') 0 59 r).map Prod.snd).getD t
    else t
  | [] => t

/-- The number of days in a month. -/
def daysIn (year month : Nat) : Nat :=
  if month = 2 then
    if year % 4 = 0 ∧ (year % 100 ≠ 0 ∨ year % 400 = 0) then 29 else 28
  else if month = 4 ∨ month = 6 ∨ month = 9 ∨ month = 11 then 30
  else 31

/-- A date, perhaps with a time, if one begins here. A day that the month does not have is an error,
and so is the year zero. -/
def readDate? (t : Text) : Option (Reading Json) := do
  let (year, afterYear) ← takeNumber? 4 t
  let (month, afterMonth) ← takeField? (some '-') 1 12 afterYear
  let (day, afterDay) ← takeField? (some '-') 1 31 afterMonth
  let rest := match afterDay with
    | c :: r =>
      if c = 'T' || c = 't' || c = ' ' then
        match afterTime? r with
        | some afterClock => afterOffset afterClock
        | none => afterDay
      else afterDay
    | [] => afterDay
  if year = 0 ∨ daysIn year month < day then some (.error .malformed)
  else some (.ok (.real (t.take (t.length - rest.length)), rest))

/-- A time of day, if one begins here. -/
def readTime? (t : Text) : Option (Reading Json) :=
  (afterTime? t).map fun rest => .ok (.real (t.take (t.length - rest.length)), rest)

/-! ## Words -/

/-- The words that are values. -/
def words : List (Text × Json) :=
  [("true".toList, .bool true), ("false".toList, .bool false)]

/-- The words that are numbers. -/
def numberWords : List Text :=
  ["inf".toList, "nan".toList, "-inf".toList, "+inf".toList, "-nan".toList, "+nan".toList]

/-- A boolean, if one begins here. -/
def readBoolean? (t : Text) : Option (Json × Text) :=
  words.findSome? fun (word, value) => (Text.after? word t).map (value, ·)

/-- A number in words, if one begins here. -/
def readNumberWord? (t : Text) : Option (Json × Text) :=
  numberWords.findSome? fun word => (Text.after? word t).map (.real word, ·)

/-- The first reading of a list that there is. -/
def firstReading (readings : List (Option (Reading Json))) : Reading Json :=
  (readings.findSome? id).getD (.error .malformed)

/-- A value that is neither an array nor a table. -/
def readScalar (t : Text) : Reading Json :=
  firstReading
    [(readText? t).map fun r => r.map fun (s, rest) => (.str s, rest),
     (readBoolean? t).map .ok,
     readDate? t,
     readTime? t,
     (readBased? t).map .ok,
     readDecimal? t,
     (readNumberWord? t).map .ok]

end Provenance.Toml
