/-
Reading JSON.

The reader accepts the JSON grammar with three additions that the common
readers share: the words NaN, Infinity and -Infinity are numbers. A text may
not hold a control character unescaped. When an object names a field twice the
later value counts. Integers of more than 4300 digits are refused for
themselves, which is a different failure from malformed text, and so are arrays
and objects that nest too deep.

The functions spend one unit of fuel per call; the whole document gets more
than two per character, and every two calls consume at least one character. So
more than two are always left for each character still to come, which is enough
for a text, where each call consumes one.
-/
import Provenance.Json.Basic
import Provenance.Nesting
import Provenance.Text.Hex

set_option autoImplicit false

namespace Provenance.Json

/-- The values that hold others. -/
inductive Nested where
  | array
  | object
  deriving DecidableEq, Repr

/-- Why a text is refused. -/
inductive Refusal where
  /-- the text does not follow the grammar -/
  | malformed
  /-- an integer of that many digits -/
  | longInteger (digits : Nat)
  /-- a value that begins one level too deep -/
  | tooDeep (value : Nested)
  deriving DecidableEq, Repr

/-- The largest number of digits an integer may have. -/
def maxIntegerDigits : Nat := 4300

/-- A step of the reader: what was read and the rest of the text. -/
abbrev Reading (α : Type) := Except Refusal (α × Text)

/-! ## Blanks and numbers -/

/-- The characters that may stand between tokens. -/
def isGap (c : Char) : Bool := c = ' ' || c = '\t' || c = '\n' || c = '\r'

/-- The text after the blanks at its beginning. -/
def skipGaps (t : Text) : Text := t.dropWhile isGap

/-- Whether a character is one of the ten digits. -/
def isDigit (c : Char) : Bool := '0' ≤ c && c ≤ '9'

/-- The number that decimal digits stand for. -/
def digitsValue (digits : Text) : Nat :=
  digits.foldl (fun n c => n * 10 + (c.toNat - '0'.toNat)) 0

/-- Splits off the digits at the beginning. -/
def takeDigits (t : Text) : Text × Text := (t.takeWhile isDigit, t.dropWhile isDigit)

/-- The fraction at the beginning of a text, if it has one: a point and at least one digit. -/
def takeFraction : Text → Text × Text
  | '.' :: rest =>
    match takeDigits rest with
    | ([], _) => ([], '.' :: rest)
    | (digits, after) => ('.' :: digits, after)
  | t => ([], t)

/-- The exponent at the beginning of a text, if it has one: the letter, perhaps a sign, and at
least one digit. -/
def takeExponent : Text → Text × Text
  | [] => ([], [])
  | e :: rest =>
    if e = 'e' || e = 'E' then
      let (sign, unsigned) := match rest with
        | '+' :: r => (['+'], r)
        | '-' :: r => (['-'], r)
        | r => ([], r)
      match takeDigits unsigned with
      | ([], _) => ([], e :: rest)
      | (digits, after) => (e :: sign ++ digits, after)
    else ([], e :: rest)

/-- The number whose digits begin here; `negative` tells whether a minus sign stood before. A zero
is a number by itself: digits after it are not part of it. -/
def readNumber (negative : Bool) (t : Text) : Reading Json :=
  let (digits, afterDigits) := match t with
    | '0' :: rest => (['0'], rest)
    | _ => takeDigits t
  match digits with
  | [] => .error .malformed
  | _ =>
    let (fraction, afterFraction) := takeFraction afterDigits
    let (exponent, rest) := takeExponent afterFraction
    match fraction ++ exponent with
    | [] =>
      if maxIntegerDigits < digits.length then .error (.longInteger digits.length)
      else
        let n : Int := Int.ofNat (digitsValue digits)
        .ok (.int (if negative then -n else n), afterDigits)
    | tail => .ok (.real ((if negative then ['-'] else []) ++ digits ++ tail), rest)

/-! ## Text -/

/-- The number of four hexadecimal digits and what follows them. -/
def takeHex4 : Text → Option (Nat × Text)
  | p :: q :: r :: s :: rest => (hexNumber? [p, q, r, s]).map (·, rest)
  | _ => none

/-- What a character stands for after a backslash. -/
def simpleEscape : Char → Option Char
  | '"' => some '"'
  | '\\' => some '\\'
  | '/' => some '/'
  | 'b' => some '\x08'
  | 'f' => some '\x0c'
  | 'n' => some '\n'
  | 'r' => some '\r'
  | 't' => some '\t'
  | _ => none

/-- The character of a code unit. A surrogate that is not part of a pair has no character; it is
read as the replacement character. -/
def unitChar (n : Nat) : Char := if 0xD800 ≤ n ∧ n < 0xE000 then '\uFFFD' else Char.ofNat n

/-- The character of an escape whose four digits gave `high`, and the rest of the text: two escapes
that form a surrogate pair are one character. -/
def joinSurrogates (high : Nat) (rest : Text) : Char × Text :=
  if 0xD800 ≤ high ∧ high < 0xDC00 then
    match rest with
    | '\\' :: 'u' :: after =>
      match takeHex4 after with
      | some (low, final) =>
        if 0xDC00 ≤ low ∧ low < 0xE000 then
          (Char.ofNat (0x10000 + (high - 0xD800) * 0x400 + (low - 0xDC00)), final)
        else (unitChar high, rest)
      | none => (unitChar high, rest)
    | _ => (unitChar high, rest)
  else (unitChar high, rest)

/-- The text up to its closing quote; the opening quote has been read. -/
def readText : Nat → Text → Reading Text
  | 0, _ => .error .malformed
  | _, [] => .error .malformed
  | fuel + 1, c :: rest =>
    if c = '"' then .ok ([], rest)
    else if c = '\\' then
      match rest with
      | [] => .error .malformed
      | 'u' :: after =>
        match takeHex4 after with
        | none => .error .malformed
        | some (n, afterDigits) =>
          let (d, final) := joinSurrogates n afterDigits
          (readText fuel final).map fun (t, r) => (d :: t, r)
      | e :: after =>
        match simpleEscape e with
        | none => .error .malformed
        | some d => (readText fuel after).map fun (t, r) => (d :: t, r)
    else if c.toNat < 0x20 then .error .malformed
    else (readText fuel rest).map fun (t, r) => (c :: t, r)

/-! ## Values -/

/-- The words that are values. -/
def keywords : List (Text × Json) :=
  [("null".toList, .null), ("true".toList, .bool true), ("false".toList, .bool false),
   ("NaN".toList, .real "NaN".toList), ("Infinity".toList, .real "Infinity".toList),
   ("-Infinity".toList, .real "-Infinity".toList)]

/-- The word that a text begins with, if it is a value. -/
def readKeyword? (t : Text) : Option (Json × Text) :=
  keywords.findSome? fun (word, value) => (Text.after? word t).map (value, ·)

mutual

/-- The value that begins the text; blanks before it have been skipped. `depth` is the number of
levels that values may still nest. -/
def readValue : Nat → Nat → Text → Reading Json
  | 0, _, _ => .error .malformed
  | fuel + 1, depth, t =>
    match t with
    | '"' :: rest => (readText fuel rest).map fun (s, r) => (.str s, r)
    | '[' :: rest =>
      match depth, skipGaps rest with
      | 0, _ => .error (.tooDeep .array)
      | _ + 1, ']' :: after => .ok (.arr [], after)
      | depth + 1, start => (readItems fuel depth start).map fun (items, r) => (.arr items, r)
    | '{' :: rest =>
      match depth, skipGaps rest with
      | 0, _ => .error (.tooDeep .object)
      | _ + 1, '}' :: after => .ok (.obj [], after)
      | depth + 1, start => (readFields fuel depth [] start).map fun (fields, r) => (.obj fields, r)
    | _ =>
      match readKeyword? t with
      | some found => .ok found
      | none =>
        match t with
        | '-' :: rest => readNumber true rest
        | _ => readNumber false t

/-- The items of an array up to its closing bracket; there is at least one. -/
def readItems : Nat → Nat → Text → Reading (List Json)
  | 0, _, _ => .error .malformed
  | fuel + 1, depth, t =>
    match readValue fuel depth t with
    | .error e => .error e
    | .ok (item, rest) =>
      match skipGaps rest with
      | ']' :: after => .ok ([item], after)
      | ',' :: after =>
        (readItems fuel depth (skipGaps after)).map fun (items, r) => (item :: items, r)
      | _ => .error .malformed

/-- The fields of an object up to its closing brace, after the `fields` already read; there is at
least one more. -/
def readFields : Nat → Nat → Fields → Text → Reading Fields
  | 0, _, _, _ => .error .malformed
  | fuel + 1, depth, fields, t =>
    match t with
    | '"' :: rest =>
      match readText fuel rest with
      | .error e => .error e
      | .ok (key, afterKey) =>
        match skipGaps afterKey with
        | ':' :: beforeValue =>
          match readValue fuel depth (skipGaps beforeValue) with
          | .error e => .error e
          | .ok (value, afterValue) =>
            match skipGaps afterValue with
            | '}' :: after => .ok (fields.put key value, after)
            | ',' :: after => readFields fuel depth (fields.put key value) (skipGaps after)
            | _ => .error .malformed
        | _ => .error .malformed
    | _ => .error .malformed

end

/-- The value a whole document holds, in which values nest at most `depth` levels. -/
def readWithin (depth : Nat) (t : Text) : Except Refusal Json :=
  match readValue (2 * t.length + 2) depth (skipGaps t) with
  | .error e => .error e
  | .ok (value, rest) => if (skipGaps rest).isEmpty then .ok value else .error .malformed

/-- The value a whole document holds. -/
def read (t : Text) : Except Refusal Json := readWithin maxNesting t

end Provenance.Json
