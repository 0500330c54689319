import JavaRecords.Files.Path
import JavaRecords.Glob.Matches
import JavaRecords.Glob.Parser

set_option autoImplicit false

namespace JavaRecords

/-- A pattern that cannot be read. -/
structure GlobError where
  pattern : Text
  error : Glob.SyntaxError
  deriving DecidableEq, Repr

def GlobError.message (error : GlobError) : String :=
  "invalid glob `" ++ String.ofList error.pattern ++ "`: " ++ error.error.message

/-- Patterns of the files to take and of those to leave out. -/
structure FileMatcher where
  included : List (List Glob.Part)
  excluded : List (List Glob.Part)
  deriving Repr

namespace FileMatcher

def readPatterns : List Text → Except GlobError (List (List Glob.Part))
  | [] => .ok []
  | pattern :: rest =>
      match Glob.parse pattern with
      | .error error => .error ⟨pattern, error⟩
      | .ok parts => (readPatterns rest).map (parts :: ·)

def ofPatterns ( included excluded : List Text) : Except GlobError FileMatcher := do
  let included ← readPatterns included
  let excluded ← readPatterns excluded
  return ⟨included, excluded⟩

def isExcluded (matcher : FileMatcher) (path : Text) : Bool :=
  matcher.excluded.any fun pattern => Glob.isMatch pattern path

/-- Whether the file at a path is chosen. Paths are relative to the root of a run. -/
def isMatch (matcher : FileMatcher) (path : Text) : Bool :=
  (matcher.included.any fun pattern => Glob.isMatch pattern path) && !matcher.isExcluded path

/-- Whether everything below a directory can be skipped. -/
def isExcludedDirectory (matcher : FileMatcher) (directory : Text) : Bool :=
  matcher.isExcluded (Path.join directory ['_'])

end FileMatcher

end JavaRecords
