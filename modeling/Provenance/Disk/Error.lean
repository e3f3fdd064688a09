/-
Input and output errors.

An operating system call that fails does so with a number and a text, and it
names the path it was called with, if it is a call on a path. A store that is no
operating system may fail with a text alone.
-/
import Provenance.Path.Basic

set_option autoImplicit false

namespace Provenance

/-! ## Numbers -/

/-- The ways in which calls on a tree of files fail. -/
inductive Errno where
  | notFound
  | busy
  | alreadyThere
  | notDirectory
  | isDirectory
  | badArgument
  | nameTooLong
  | notEmpty
  | tooManyLinks
  deriving DecidableEq, Repr

/-- The number of an error. -/
def Errno.code : Errno → Int
  | .notFound => 2
  | .busy => 16
  | .alreadyThere => 17
  | .notDirectory => 20
  | .isDirectory => 21
  | .badArgument => 22
  | .nameTooLong => 36
  | .notEmpty => 39
  | .tooManyLinks => 40

/-- The text of an error. -/
def Errno.text : Errno → Text
  | .notFound => "No such file or directory".toList
  | .busy => "Device or resource busy".toList
  | .alreadyThere => "File exists".toList
  | .notDirectory => "Not a directory".toList
  | .isDirectory => "Is a directory".toList
  | .badArgument => "Invalid argument".toList
  | .nameTooLong => "File name too long".toList
  | .notEmpty => "Directory not empty".toList
  | .tooManyLinks => "Too many levels of symbolic links".toList

/-! ## Errors -/

/-- A failed call. -/
inductive IoError where
  /-- a number, its text, and the path of the call -/
  | numbered (code : Int) (text : Text) (path : Path)
  /-- the error of a call that was given no path -/
  | pathless (e : Errno)
  /-- a text and nothing else -/
  | bare (text : Text)
  deriving DecidableEq, Repr

namespace IoError

/-- The error of a call on a path. -/
def ofErrno (e : Errno) (path : Path) : IoError := .numbered e.code e.text path

/-- The number of an error, if it has one. -/
def code? : IoError → Option Int
  | .numbered code _ _ => some code
  | .pathless e => some e.code
  | .bare _ => none

/-- A number and its text. -/
def label (code : Int) (text : Text) : Text :=
  "[Errno ".toList ++ Text.ofInt code ++ "] ".toList ++ text

/-- The error in words. -/
def message : IoError → Text
  | .numbered code text path => label code text ++ ": ".toList ++ path.text.quoted
  | .pathless e => label e.code e.text
  | .bare text => text

/-- Why the call failed: the text of the number, or the whole message where there is none. -/
def reason : IoError → Text
  | .numbered code [] path => (IoError.numbered code [] path).message
  | .numbered _ text _ => text
  | .pathless e => e.text
  | .bare text => text

/-- The text of the path of the call, empty if it is not known. -/
def pathText : IoError → Text
  | .numbered _ _ path => path.text
  | .pathless _ => []
  | .bare _ => []

end IoError

end Provenance
