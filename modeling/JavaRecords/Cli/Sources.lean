import JavaRecords.Cli.Outcome
import JavaRecords.Conversion.Batch

set_option autoImplicit false

namespace JavaRecords

/-- The root of a run: a directory itself, and the directory that a file lies in. -/
def World.runRoot (world : World) (path : Text) : Text :=
  if world.files.isFile path then
    match Path.parent path with
    | [] => ['.']
    | parent => parent
  else path

def chosenFiles (matcher : FileMatcher) (directory : Entry) : List (Text × Option Text) :=
  (directory.filesBelow matcher.isExcludedDirectory []).filter fun file => matcher.isMatch file.1

def readFiles (directory : Text) : List (Text × Option Text) → Except Failure (List SourceFile)
  | [] => .ok []
  | (relative, text) :: rest =>
      let path := Path.join directory relative
      match (Entry.file text).read with
      | .error cause => .error (.unreadable path cause)
      | .ok text => (readFiles directory rest).map (⟨path, text⟩ :: ·)

def World.sources (world : World) (config : FilesConfig) (path : Text) :
    Except Failure (List SourceFile) :=
  match world.files path with
  | .error _ => .error (.missing path)
  | .ok (.file text) =>
      match (Entry.file text).read with
      | .error cause => .error (.unreadable path cause)
      | .ok text => .ok [⟨path, text⟩]
  | .ok (.directory entries) =>
      match config.matcher with
      | .error error => .error (.glob error)
      | .ok matcher => readFiles path (chosenFiles matcher (.directory entries))

end JavaRecords
