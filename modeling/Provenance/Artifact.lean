/-
Artifact locations.

A build names each artifact by a path relative to the output directory. The
path is read with backslashes for slashes and without blanks around it, and is
refused if it could lead anywhere but strictly below that directory.
-/
import Provenance.Path.Basic
import Provenance.Text.Blank

set_option autoImplicit false

namespace Provenance.Artifact

/-- Why a path is not the path of an artifact. -/
inductive Refusal where
  | empty
  | rooted
  | climbs
  | outputDirectory
  deriving DecidableEq, Repr

/-- What is wrong with the path. -/
def Refusal.reason : Refusal → Text
  | .empty => "Artifact path is empty.".toList
  | .rooted => "Artifact path must be relative to the output directory.".toList
  | .climbs => "Path traversal is blocked.".toList
  | .outputDirectory => "Artifact path names the output directory itself.".toList

/-- What to do about it. -/
def Refusal.hint : Refusal → Text
  | .empty => "Output files must declare a path such as 'pkg/Foo.class'.".toList
  | .rooted => "Drop the leading root and use a path such as 'pkg/Foo.class'.".toList
  | .climbs => "Remove '..' segments from the output file path.".toList
  | .outputDirectory => "Output files must declare a file path such as 'pkg/Foo.class'.".toList

/-- Whether a character is an ASCII letter. -/
def isLetter (c : Char) : Bool := ('a' ≤ c && c ≤ 'z') || ('A' ≤ c && c ≤ 'Z')

/-- Whether a text begins with a drive: a letter, a colon and a slash. -/
def hasDrive : Text → Bool
  | letter :: ':' :: '/' :: _ => isLetter letter
  | _ => false

/-- A path as it is read: backslashes are slashes, and blanks around it do not count. -/
def cleaned (raw : Text) : Text := (raw.replaceChar '\\' '/').trim

/-- The names below the output directory of an artifact path. -/
def namesOf (raw : Text) : Except Refusal (List Text) :=
  let t := cleaned raw
  if t.isEmpty then .error .empty
  else if t.startsWith ['/'] || hasDrive t then .error .rooted
  else
    let names := Path.namesIn t
    if names.contains Path.upName then .error .climbs
    else if names.isEmpty then .error .outputDirectory
    else .ok names

/-- The location of an artifact under the output directory. -/
def locate (outputRoot : Path) (raw : Text) : Except Refusal Path :=
  (namesOf raw).map outputRoot.descend

/-- The ending of class files. -/
def classSuffix : Text := ".class".toList

/-- The location of the class file of a class, given its internal name. -/
def classFile (outputRoot : Path) (internalName : Text) : Except Refusal Path :=
  locate outputRoot (internalName ++ classSuffix)

end Provenance.Artifact
