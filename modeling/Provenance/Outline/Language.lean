/-
Languages.

A language claims paths and reads texts. Among several languages the first that
claims a path is taken, in the order in which they were made known; a fallback
takes what none of them claims.
-/
import Provenance.Outline.Kotlin

set_option autoImplicit false

namespace Provenance.Outline

/-- A reader of source texts. -/
structure Language where
  name : Text
  /-- whether the language claims a path -/
  supports : Text → Bool
  /-- the unit of a path and its text -/
  parse : Text → Text → Except Breach SourceUnit

/-- Kotlin, for paths that end in `.kt` in any case. -/
def Language.kotlin : Language := ⟨"kotlin_lexical".toList, Kotlin.supports, Kotlin.parse⟩

/-- The reader of texts in no known language; it claims every path and finds nothing. -/
def Language.plain : Language :=
  ⟨"lexical".toList, fun _ => true, fun path text => .ok (.bare path text)⟩

/-- The languages made known, in order, and the fallback. -/
structure Languages where
  known : List Language
  fallback : Option Language

namespace Languages

/-- No language at all. -/
def empty : Languages := ⟨[], none⟩

/-- Makes a language known, after those already known. -/
def add (ls : Languages) (l : Language) : Languages := { ls with known := ls.known ++ [l] }

/-- Makes a language the fallback, in place of any other. -/
def setFallback (ls : Languages) (l : Language) : Languages := { ls with fallback := some l }

/-- The names of the languages, the fallback last. -/
def names (ls : Languages) : List Text := (ls.known ++ ls.fallback.toList).map Language.name

/-- The language for a path. -/
def select? (ls : Languages) (path : Text) : Option Language :=
  (ls.known.find? (·.supports path)).or ls.fallback

/-- The wording when no language takes a path. -/
def noLanguage (path : Text) : Text := "No adapter supports path: ".toList ++ path

/-- Kotlin, and the plain reader for everything else. -/
def standard : Languages := (empty.add .kotlin).setFallback .plain

end Languages

/-- The unit of a path and its text, read by the language for the path. -/
def parseUnit (path text : Text) : Except Breach SourceUnit :=
  match Languages.standard.select? path with
  | some language => language.parse path text
  | none => .ok (.bare path text)

end Provenance.Outline
