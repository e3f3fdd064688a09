/-
File name patterns.

A pattern is a sequence of items: a star matches any text, slashes and line
breaks included; a question mark any one character; a bracketed set one
character in it (or, after an exclamation mark, one not in it); everything else
itself. There is no escape character. Case counts.

The rules for sets follow the usual shell patterns with some corners worth
stating. A closing bracket that comes first belongs to the set. A bracket that
is never closed stands for itself. Inside a set a hyphen between two characters
makes a range; the reading is from left to right, and the character that ends a
range does not start another. A range whose ends are in descending order is
empty: both of its ends vanish from the set. An exclamation mark that comes to
stand first because of that still negates. A set that is left empty matches
nothing, and its negation anything.
-/
import Provenance.Text.Basic

set_option autoImplicit false

namespace Provenance.Glob

/-! ## Patterns -/

/-- The characters of a bracketed set. -/
structure CharSet where
  negated : Bool
  /-- closed ranges; a single character is a range of one -/
  ranges : List (Char × Char)
  deriving DecidableEq, Repr

/-- Whether a character is in the set. -/
def CharSet.has (s : CharSet) (c : Char) : Bool :=
  s.ranges.any (fun r => r.1 ≤ c ∧ c ≤ r.2) != s.negated

/-- One item of a pattern. -/
inductive Item where
  | star
  | any
  | set (s : CharSet)
  | char (c : Char)
  deriving DecidableEq, Repr

/-- Whether a single-character item accepts a character. A star is not asked. -/
def Item.accepts : Item → Char → Bool
  | .star, _ => false
  | .any, _ => true
  | .set s, c => s.has c
  | .char d, c => c = d

/-! ## Matching -/

/-- The ends of a text, from the text itself down to the empty one. -/
def ends : Text → List Text
  | [] => [[]]
  | c :: rest => (c :: rest) :: ends rest

/-- Whether the items match the whole text. This is what a pattern means; with many stars it tries
too many divisions of the text to be run, and `matchRow` gives the same answer. -/
def itemsMatch : List Item → Text → Bool
  | [], t => t.isEmpty
  | .star :: items, t => (ends t).any (itemsMatch items)
  | item :: items, t =>
    match t with
    | [] => false
    | c :: rest => item.accepts c && itemsMatch items rest

/-- The row of a star before items whose row is given: it matches an end when they match that end
or a shorter one. -/
def starRow : List Bool → List Bool
  | [] => []
  | b :: row =>
    let later := starRow row
    (b || later.headD false) :: later

/-- The row of a single-character item before items whose row is given. -/
def charRow (item : Item) : Text → List Bool → List Bool
  | [], _ => [false]
  | c :: rest, row => (item.accepts c && row.tail.headD false) :: charRow item rest row.tail

/-- For each end of the text, whether the items match it. One pass over the text for each item. -/
def matchRow (t : Text) : List Item → List Bool
  | [] => (ends t).map List.isEmpty
  | .star :: items => starRow (matchRow t items)
  | item :: items => charRow item t (matchRow t items)

theorem starRow_map_ends (p : Text → Bool) (t : Text) :
    starRow ((ends t).map p) = (ends t).map fun e => (ends e).any p := by
  induction t with
  | nil => simp [ends, starRow]
  | cons c rest ih =>
    have head : ((ends rest).map fun e => (ends e).any p).headD false = (ends rest).any p := by
      cases rest <;> simp [ends]
    simp only [ends, List.map_cons, starRow, ih, head, List.any_cons]

theorem charRow_map_ends (item : Item) (items : List Item) (h : item ≠ .star) (t : Text) :
    charRow item t ((ends t).map (itemsMatch items)) = (ends t).map (itemsMatch (item :: items)) := by
  induction t with
  | nil => cases item <;> simp_all [ends, charRow, itemsMatch]
  | cons c rest ih =>
    have head : ((ends rest).map (itemsMatch items)).headD false = itemsMatch items rest := by
      cases rest <;> simp [ends]
    have step : itemsMatch (item :: items) (c :: rest) = (item.accepts c && itemsMatch items rest) := by
      cases item <;> simp_all [itemsMatch]
    simp only [ends, List.map_cons, charRow, List.tail_cons, head, ih, step]

/-- The row holds the meaning of the items at each end of the text. -/
theorem matchRow_eq (items : List Item) (t : Text) :
    matchRow t items = (ends t).map (itemsMatch items) := by
  induction items with
  | nil => rw [matchRow]; congr 1
  | cons item items ih =>
    by_cases h : item = .star
    · subst h
      rw [matchRow, ih, starRow_map_ends]
      congr 1
    · rw [← charRow_map_ends item items h, ← ih]
      cases item <;> simp_all [matchRow]

/-! ## Sets -/

/-- The pieces of a set's body between the hyphens that make ranges. A hyphen counts only when it
stands at least `skip` characters in, and after one the next cannot come before two more
characters. -/
def rangePieces : Nat → Text → List Text
  | _, [] => [[]]
  | 0, c :: rest =>
    if c = '-' then [] :: rangePieces 2 rest
    else match rangePieces 0 rest with
      | [] => [[c]]
      | piece :: pieces => (c :: piece) :: pieces
  | skip + 1, c :: rest =>
    match rangePieces skip rest with
    | [] => [[c]]
    | piece :: pieces => (c :: piece) :: pieces

/-- A hyphen at the very end makes no range: it is the last character of the piece before it. -/
def closePieces : List Text → List Text
  | [] => []
  | [piece] => [piece]
  | [piece, []] => [piece ++ ['-']]
  | piece :: pieces => piece :: closePieces pieces

/-- Joins neighbouring pieces whose range would descend, from the right; both ends of the range
vanish. -/
def dropDescending : List Text → List Text
  | [] => []
  | piece :: pieces =>
    match dropDescending pieces with
    | [] => [piece]
    | next :: later =>
      match piece.getLast?, next with
      | some low, high :: others =>
        if high < low then (piece.dropLast ++ others) :: later else piece :: next :: later
      | _, _ => piece :: next :: later

/-- The ranges of the pieces: each character by itself, and one range across each cut. With nothing
before the first cut the hyphen there stands for itself. -/
def pieceRanges : List Text → List (Char × Char)
  | [] => []
  | [piece] => piece.map fun c => (c, c)
  | piece :: next :: pieces =>
    (piece.map fun c => (c, c))
      ++ (match piece.getLast?, next.head? with
          | some low, some high => [(low, high)]
          | _, _ => [('-', '-')])
      ++ pieceRanges (next :: pieces)

/-- The item for the body of a bracketed set. -/
def setItem (body : Text) : Item :=
  let skip := match body with
    | '!' :: _ => 2
    | _ => 1
  match dropDescending (closePieces (rangePieces skip body)) with
  | ('!' :: piece) :: pieces => .set ⟨true, pieceRanges (piece :: pieces)⟩
  | pieces => .set ⟨false, pieceRanges pieces⟩

/-! ## Reading a pattern -/

/-- The body of the set that opens before `t` and the pattern after its closing bracket, if it is
closed. -/
def setBody? (t : Text) : Option (Text × Text) :=
  let (mark, afterMark) := match t with
    | '!' :: rest => (['!'], rest)
    | _ => ([], t)
  let (first, rest) := match afterMark with
    | ']' :: rest => ([']'], rest)
    | _ => ([], afterMark)
  match rest.dropWhile (· ≠ ']') with
  | [] => none
  | _ :: after => some (mark ++ first ++ rest.takeWhile (· ≠ ']'), after)

/-- The items of a pattern. The fuel is spent one per character, of which every step consumes at
least one. -/
def readItems : Nat → Text → List Item
  | 0, _ => []
  | _, [] => []
  | fuel + 1, c :: rest =>
    if c = '*' then
      match readItems fuel rest with
      | .star :: items => .star :: items
      | items => .star :: items
    else if c = '?' then .any :: readItems fuel rest
    else if c = '[' then
      match setBody? rest with
      | none => .char '[' :: readItems fuel rest
      | some (body, after) => setItem body :: readItems fuel after
    else .char c :: readItems fuel rest

/-- The items of a pattern; neighbouring stars are one. -/
def items (pattern : Text) : List Item := readItems pattern.length pattern

/-- Whether a pattern matches the whole of a text. -/
def globMatch (pattern t : Text) : Bool := (matchRow t (items pattern)).headD false

theorem globMatch_eq (pattern t : Text) : globMatch pattern t = itemsMatch (items pattern) t := by
  rw [globMatch, matchRow_eq]
  cases t <;> rfl

end Provenance.Glob
