/-
Declarations.

A declaration is what an outline shows of a class, an interface or an object:
its kind and name, how it is nested and on which lines it stands. Whatever finds
declarations has to meet a contract before they are shown, and they are shown in
an order that does not depend on how they were found.
-/
import Provenance.Text.Blank
import Provenance.Order

set_option autoImplicit false

namespace Provenance.Outline

/-! ## Declarations -/

/-- How a declaration is nested. A label that is none of the three known ones can be written down
but breaks the contract. -/
inductive Scope where
  /-- outside all braces -/
  | topLevel
  /-- directly in the body of another declaration -/
  | member
  /-- in some other block, such as a function body -/
  | inBlock
  | unknown (label : Text)
  deriving DecidableEq, Repr

/-- The label of a scope. -/
def Scope.label : Scope → Text
  | .topLevel => "top_level".toList
  | .member => "member".toList
  | .inBlock => "local".toList
  | .unknown label => label

/-- The scope with a given label. -/
def Scope.ofLabel (t : Text) : Scope :=
  if t = Scope.topLevel.label then .topLevel
  else if t = Scope.member.label then .member
  else if t = Scope.inBlock.label then .inBlock
  else .unknown t

/-- One declaration. Lines are counted from one. -/
structure Declaration where
  kind : Text
  name : Text
  /-- the name with its package and the classes around it, where it has one -/
  fullName : Option Text
  scope : Scope
  startLine : Int
  endLine : Int
  /-- the full name of the declaration around a member -/
  parent : Option Text
  deriving DecidableEq, Repr

/-- Whether the declaration has an artifact of its own. -/
def Declaration.isTopLevel (d : Declaration) : Bool := d.scope = .topLevel

/-! ## The contract -/

/-- How a declaration breaks the contract. -/
inductive Breach where
  | blankKind
  | blankName
  | unknownScope
  | startLine
  | endLine
  | parentOfTopLevel
  deriving DecidableEq, Repr

/-- The wording of a breach. -/
def Breach.message : Breach → Text
  | .blankKind => "Declaration kind must be non-empty.".toList
  | .blankName => "Declaration name must be non-empty.".toList
  | .unknownScope => "Declaration scope must be one of top_level, member, local.".toList
  | .startLine => "Declaration start_line must be >= 1.".toList
  | .endLine => "Declaration end_line must be >= start_line.".toList
  | .parentOfTopLevel => "Top-level declarations cannot have a parent.".toList

/-- The first rule of the contract that a declaration breaks. -/
def Declaration.breach? (d : Declaration) : Option Breach :=
  if d.kind.trim = [] then some .blankKind
  else if d.name.trim = [] then some .blankName
  else match d.scope with
    | .unknown _ => some .unknownScope
    | scope =>
      if d.startLine < 1 then some .startLine
      else if d.endLine < d.startLine then some .endLine
      else if scope = .topLevel ∧ d.parent ≠ none then some .parentOfTopLevel
      else none

/-! ## Order -/

/-- A text without blanks at its ends; a text of blanks is no text. -/
def trimmed? (t : Option Text) : Option Text :=
  match t.map Text.trim with
  | some [] => none
  | u => u

/-- A declaration with its optional texts trimmed. -/
def Declaration.trimmed (d : Declaration) : Declaration :=
  { d with fullName := trimmed? d.fullName, parent := trimmed? d.parent }

/-- The order of declarations: by first line, last line, name and kind. -/
def Declaration.order (d e : Declaration) : Ordering :=
  (compare d.startLine e.startLine).then <| (compare d.endLine e.endLine).then <|
    (compare d.name e.name).then (compare d.kind e.kind)

/-- The declarations trimmed and in order, or the first breach of the contract. -/
def arrange (ds : List Declaration) : Except Breach (List Declaration) :=
  let ds := ds.map Declaration.trimmed
  match ds.findSome? Declaration.breach? with
  | some b => .error b
  | none => .ok (sortBy Declaration.order ds)

end Provenance.Outline
