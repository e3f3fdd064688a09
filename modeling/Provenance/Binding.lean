/-
Bindings.

A binding says which class a declaration's full name stands for once a program
has been analysed. It is a table from full names to class names, in the order in
which the names were first bound. Where no analysis is at hand, each declaration
is bound to the class it declares.
-/
import Provenance.ClassName
import Provenance.Outline.Unit

set_option autoImplicit false

namespace Provenance

/-- A table from full names of declarations to class names. -/
abbrev Binding := List (Text × ClassName)

namespace Binding

/-- The class that a name is bound to. -/
def resolve (b : Binding) (fullName : Text) : Option ClassName := b.lookup fullName

/-- Binds a name; one that is bound keeps its place and takes the new class. -/
def bind (name : Text) (c : ClassName) : Binding → Binding
  | [] => [(name, c)]
  | (n, d) :: rest => if n = name then (n, c) :: rest else (n, d) :: bind name c rest

/-- Binds a name unless it is bound already. -/
def bindNew (name : Text) (c : ClassName) (b : Binding) : Binding :=
  if (b.resolve name).isSome then b else b ++ [(name, c)]

/-- The bound names, sorted. -/
def names (b : Binding) : List Text := sorted (b.map Prod.fst)

/-- The binding that takes each class name for itself; of two with one full name the later counts. -/
def ofClassNames (cs : List ClassName) : Binding := cs.foldl (fun b c => b.bind c.fullName c) []

/-- Binds the declarations of a package that have a full name not in `exclude`, each to the class of
that name in the package; a name that is bound already stays bound as it is. -/
def addDeclared (exclude : List Text) (package : Option Text) :
    Binding → List Outline.Declaration → Except ClassNameError Binding
  | b, [] => .ok b
  | b, d :: ds =>
    match d.fullName with
    | none => addDeclared exclude package b ds
    | some name =>
      if name ∈ exclude then addDeclared exclude package b ds
      else match ClassName.make name package with
        | .error e => .error e
        | .ok c => addDeclared exclude package (b.bindNew name c) ds

/-- The binding after the declarations of some units. -/
def addUnits (exclude : List Text) :
    Binding → List Outline.SourceUnit → Except ClassNameError Binding
  | b, [] => .ok b
  | b, u :: us =>
    match addDeclared exclude u.package b u.declarations with
    | .error e => .error e
    | .ok b' => addUnits exclude b' us

/-- The binding of every declaration of some units that has a full name not in `exclude` to the
class it declares. -/
def declared (units : List Outline.SourceUnit) (exclude : List Text) :
    Except ClassNameError Binding :=
  addUnits exclude [] units

end Binding

end Provenance
