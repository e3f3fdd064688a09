/-
Declaration headers of Kotlin.

A line declares something when it begins with annotations, modifiers and one of
the words class, interface and object, in this order; a name may follow. The
recognisers below read a masked line from left to right and return what is left
of it. None of them ever has to take a decision back: what an annotation, a
modifier or a keyword can begin with excludes the others.

Names are ASCII identifiers here. Blanks and word ends are those of Unicode.
-/
import Provenance.Text.Blank
import Provenance.Text.Word

set_option autoImplicit false

namespace Provenance.Outline

/-! ## Identifiers -/

/-- Whether a character can begin an identifier. -/
def isIdentStart (c : Char) : Bool :=
  ('A' ≤ c && c ≤ 'Z') || ('a' ≤ c && c ≤ 'z') || c = '_'

/-- Whether a character can go on an identifier. -/
def isIdentPart (c : Char) : Bool := isIdentStart c || ('0' ≤ c && c ≤ '9')

/-- The identifier at the beginning of a text. -/
def takeIdent? : Text → Option (Text × Text)
  | [] => none
  | c :: rest =>
    if isIdentStart c then some (c :: rest.takeWhile isIdentPart, rest.dropWhile isIdentPart)
    else none

/-- The text after the blanks at its beginning, if there is at least one. -/
def skipBlanks? : Text → Option Text
  | [] => none
  | c :: rest => if isBlank c then some (Text.trimLeft rest) else none

/-! ## Package -/

/-- The further segments of a dotted name, blanks allowed around the dots. The fuel bounds the
number of segments; each takes at least two characters. -/
def takeSegments : Nat → Text → List Text
  | 0, _ => []
  | fuel + 1, t =>
    match t.trimLeft with
    | '.' :: rest =>
      match takeIdent? (Text.trimLeft rest) with
      | some (segment, after) => segment :: takeSegments fuel after
      | none => []
    | _ => []

/-- The package that a line names, its segments joined by dots. -/
def packageIn? (line : Text) : Option Text := do
  let afterWord ← Text.after? "package".toList line.trimLeft
  let (segment, rest) ← takeIdent? (← skipBlanks? afterWord)
  return Text.join ['.'] (segment :: takeSegments rest.length rest)

/-! ## Headers -/

/-- The words that declare something. -/
inductive Keyword where
  | «class»
  | interface
  | object
  deriving DecidableEq, Repr

/-- The spelling of a keyword. -/
def Keyword.text : Keyword → Text
  | .class => "class".toList
  | .interface => "interface".toList
  | .object => "object".toList

/-- The words that may stand before the keyword. -/
def modifierWords : List Text :=
  ["public".toList, "private".toList, "internal".toList, "protected".toList, "open".toList,
   "abstract".toList, "final".toList, "sealed".toList, "data".toList, "enum".toList,
   "annotation".toList, "inner".toList, "value".toList, "inline".toList, "expect".toList,
   "actual".toList, "external".toList, "companion".toList, "fun".toList]

/-- What a line declares, and what is left of the line after it. -/
structure Header where
  modifiers : List Text
  keyword : Keyword
  name : Option Text
  rest : Text
  deriving DecidableEq, Repr

/-- The text after the dotted identifiers that follow directly. -/
def skipDotted : Nat → Text → Text
  | fuel + 1, '.' :: rest =>
    match takeIdent? rest with
    | some (_, after) => skipDotted fuel after
    | none => '.' :: rest
  | _, t => t

/-- The text after an argument list that follows directly: up to the first closing parenthesis. A
list that is not closed on the line is no argument list. -/
def skipArguments : Text → Text
  | '(' :: rest =>
    match rest.dropWhile (· ≠ ')') with
    | [] => '(' :: rest
    | _ :: after => after
  | t => t

/-- The text after the annotations at its beginning; each is followed by blanks. None if something
begins like an annotation and is not one. -/
def skipAnnotations : Nat → Text → Option Text
  | fuel + 1, '@' :: rest => do
    let (_, afterName) ← takeIdent? rest
    let afterBlanks ← skipBlanks? (skipArguments (skipDotted afterName.length afterName))
    skipAnnotations fuel afterBlanks
  | _, t => some t

/-- The modifiers at the beginning of a text, each followed by blanks, and what follows them. -/
def takeModifiers : Nat → Text → List Text × Text
  | 0, t => ([], t)
  | fuel + 1, t =>
    match modifierWords.findSome? fun w => ((Text.after? w t).bind skipBlanks?).map (w, ·) with
    | some (w, after) =>
      let (ws, rest) := takeModifiers fuel after
      (w :: ws, rest)
    | none => ([], t)

/-- The keyword at the beginning of a text, provided the word ends there. -/
def takeKeyword? (t : Text) : Option (Keyword × Text) :=
  [Keyword.class, .interface, .object].findSome? fun k => do
    let after ← Text.after? k.text t
    match after with
    | c :: _ => if isWordChar c then none else some (k, after)
    | [] => some (k, after)

/-- What a line declares, if it declares something. -/
def headerIn? (line : Text) : Option Header := do
  let afterAnnotations ← skipAnnotations line.length line.trimLeft
  let (modifiers, afterModifiers) := takeModifiers line.length afterAnnotations
  let (keyword, afterKeyword) ← takeKeyword? afterModifiers
  let beforeName := afterKeyword.trimLeft
  match takeIdent? beforeName with
  | some (name, rest) => return ⟨modifiers, keyword, some name, rest⟩
  | none => return ⟨modifiers, keyword, none, beforeName⟩

end Provenance.Outline
