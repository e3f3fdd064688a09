/-
Which files are sources.

A file is a source when its suffix is one of those set, no pattern excludes it,
and its key begins with a source directory. A pattern excludes a key when it
matches the key, or the key with a slash before it, so that a pattern for a
directory at any depth also takes one at the top.

A pattern of the form `**/name/**` excludes whole directories. A search through
the tree need not enter those; `prunedNames` collects their names.
-/
import Provenance.Glob
import Provenance.Settings.Basic

set_option autoImplicit false

namespace Provenance.SourceSettings

/-- Whether a pattern takes a key. -/
def anyExcludes (patterns : List Text) (key : Text) : Bool :=
  patterns.any fun p => Glob.globMatch p key || Glob.globMatch p ('/' :: key)

/-- Whether a key is excluded. -/
def excluded (s : SourceSettings) (key : Text) : Bool := anyExcludes s.excludes key

/-- Whether the suffix of a key is that of a source. -/
def hasSourceSuffix (s : SourceSettings) (key : Text) : Bool :=
  s.extensions.contains (Path.ofText key).suffix.lower

/-- Whether a key is that of a source. -/
def isSource (s : SourceSettings) (key : Text) : Bool :=
  s.hasSourceSuffix key && !s.excluded key && s.roots.any fun root => key.startsWith (root ++ ['/'])

/-- The characters that make a name in a pattern more than a name. -/
def patternMarks : List Char := ['*', '?', '[', ']', '\x7b', '\x7d']

/-- The directory name that a pattern of the form `**/name/**` excludes. -/
def prunedName? (pattern : Text) : Option Text :=
  if pattern.startsWith "**/".toList && pattern.endsWith "/**".toList then
    let inner := (pattern.drop 3).dropLast.dropLast.dropLast
    let name := Text.dropRightWhile (· = '/') (inner.dropWhile (· = '/'))
    if name.isEmpty || name.any patternMarks.contains then none else some name
  else none

/-- The names of directories that are excluded as a whole. -/
def prunedNames (s : SourceSettings) : List Text := s.excludes.filterMap prunedName?

/-- Whether a search need not enter the directory with a given name and key. -/
def prunes (s : SourceSettings) (name key : Text) : Bool :=
  s.prunedNames.contains name && s.excluded key

end Provenance.SourceSettings
