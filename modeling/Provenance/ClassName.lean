/-
Class names.

A class has a full name in the source, segments joined by dots, of which the
first ones are its package and the rest leads from the outermost class to the
class itself. In the binary form the two parts are kept apart: slashes within
the package and after it, dollar signs between the classes.
-/
import Provenance.Text.Blank

set_option autoImplicit false

namespace Provenance

/-- Why a pair of texts is no class name. -/
inductive ClassNameError where
  | blank
  | outsidePackage (fullName package : Text)
  deriving DecidableEq, Repr

/-- The wording of the error. -/
def ClassNameError.message : ClassNameError → Text
  | .blank => "ClassDescriptor fq_name must be non-empty.".toList
  | .outsidePackage fullName package =>
    "ClassDescriptor fq_name '".toList ++ fullName ++ "' is not inside package '".toList ++ package
      ++ "'.".toList

/-- The name of a class in the source, and its package; an empty package is none. -/
structure ClassName where
  fullName : Text
  package : Option Text
  deriving DecidableEq, Repr

namespace ClassName

/-- The package, if there is one and it is not empty. -/
def package? (c : ClassName) : Option Text := c.package.filter (· ≠ [])

/-- The class name with a full name and a package: the full name is not blank and starts with the
package and a dot. -/
def make (fullName : Text) (package : Option Text) : Except ClassNameError ClassName :=
  if fullName.trim = [] then .error .blank
  else match (ClassName.mk fullName package).package? with
    | none => .ok ⟨fullName, package⟩
    | some p =>
      if fullName.startsWith (p ++ ['.']) then .ok ⟨fullName, package⟩
      else .error (.outsidePackage fullName p)

/-- The class names from the outermost to the class itself, without the package. -/
def classPath (c : ClassName) : List Text :=
  match c.package? with
  | none => c.fullName.splitOn '.'
  | some p => Text.splitOn '.' (c.fullName.drop (p.length + 1))

/-- The binary name: the package with slashes, a slash, and the classes joined by dollar signs. -/
def internalName (c : ClassName) : Text :=
  let classes := Text.join ['$'] c.classPath
  match c.package? with
  | none => classes
  | some p => p.replaceChar '.' '/' ++ '/' :: classes

end ClassName

end Provenance
