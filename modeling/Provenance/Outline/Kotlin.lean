/-
The outline of a Kotlin source.

The source is masked and read line by line; each line declares at most one
thing. What a declaration is nested in follows from the braces: at depth zero it
is top-level; directly in the body of a declaration it is that one's member;
anywhere else it belongs to a block and has no full name. The bodies that are
open at a line are kept as a stack, innermost first.
-/
import Provenance.Outline.Mask
import Provenance.Outline.Header
import Provenance.Outline.Body
import Provenance.Outline.Unit
import Provenance.Text.Lower

set_option autoImplicit false

namespace Provenance.Outline.Kotlin

/-! ## Names and kinds -/

/-- The name shown for a declaration that has none. -/
def anonymousName : Text := "<anonymous>".toList

/-- The name of a companion that is given none. -/
def companionName : Text := "Companion".toList

/-- A name within an enclosing one. -/
def qualify (enclosing : Option Text) (name : Text) : Text :=
  match enclosing with
  | none => name
  | some e => e ++ '.' :: name

/-- The modifiers that show in the kind; the first that is present does. -/
def kindModifiers : List Text := ["enum".toList, "annotation".toList, "companion".toList]

/-- The kind a header declares. -/
def kindOf (h : Header) : Text :=
  match kindModifiers.find? h.modifiers.contains with
  | some m => m ++ '_' :: h.keyword.text
  | none => h.keyword.text

/-- The name a header gives. -/
def nameOf (h : Header) : Option Text :=
  match h.name with
  | some name => some name
  | none => if h.modifiers.contains "companion".toList then some companionName else none

/-! ## Nesting -/

/-- The body of a declaration: the full name to qualify members with, the line it ends on, and the
depth of what stands directly in it. -/
structure OpenBody where
  fullName : Option Text
  endLine : Nat
  depth : Nat
  deriving DecidableEq, Repr

/-- Scope, parent and full name of a declaration of a given name at a depth, in a package, inside
the bodies that are open. -/
def nesting (package : Option Text) (opened : List OpenBody) (depth : Nat) (name : Option Text) :
    Scope × Option Text × Option Text :=
  if depth = 0 then (.topLevel, none, name.map (qualify package))
  else match opened.head? with
    | none => (.inBlock, none, none)
    | some body =>
      if body.depth = depth then
        (.member, body.fullName, body.fullName.bind fun p => name.map (qualify (some p)))
      else (.inBlock, none, none)

/-! ## Declarations -/

/-- The declarations of the lines from number `line` on, given with the depths they begin at. -/
def declarationsFrom (package : Option Text) (scan : BraceScan) :
    (line : Nat) → (opened : List OpenBody) → (lines : List Text) → (depths : List Nat) →
    List Declaration
  | _, _, [], _ => []
  | _, _, _, [] => []
  | line, opened, text :: later, depth :: depths =>
    match headerIn? text with
    | none => declarationsFrom package scan (line + 1) opened later depths
    | some header =>
      let opened := opened.dropWhile fun body => body.endLine < line
      let name := nameOf header
      let (scope, parent, fullName) := nesting package opened depth name
      let bodyEnd := bodyEnd? scan headerLines 0 line (text.length - header.rest.length) header.rest
        later
      let declaration : Declaration :=
        { kind := kindOf header
          name := name.getD anonymousName
          fullName := fullName
          scope := scope
          startLine := line
          endLine := bodyEnd.getD line
          parent := parent }
      let opened := match bodyEnd with
        | some last => ⟨fullName, last, depth + 1⟩ :: opened
        | none => opened
      declaration :: declarationsFrom package scan (line + 1) opened later depths

/-- The declarations of a masked text, in the order of their lines. -/
def declarationsOf (masked : Text) : List Declaration :=
  declarationsFrom (masked.splitLines.findSome? packageIn?) (scanBraces masked) 1 []
    masked.splitLines (lineDepths masked)

/-- The unit of a Kotlin source, or the breach of the contract that its declarations make. -/
def parse (path text : Text) : Except Breach SourceUnit :=
  let masked := mask .kotlin text
  (arrange (declarationsOf masked)).map fun declarations =>
    { path := path
      package := masked.splitLines.findSome? packageIn?
      declarations := declarations
      digest := Digest.ofText text }

/-- Whether a path is that of a Kotlin source. -/
def supports (path : Text) : Bool := path.lower.endsWith ".kt".toList

end Provenance.Outline.Kotlin
