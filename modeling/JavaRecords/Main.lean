import JavaRecords.Cli.Run

set_option autoImplicit false

namespace JavaRecords

/-- Reads a file, or a directory with everything in it. Links inside a directory are left out. -/
partial def readEntry (place : IO.FS.DirEntry) : IO (Except ReadError Entry) := do
  if ← place.path.isDir then
    let mut entries := []
    for inner in ← place.path.readDir do
      if (← inner.path.symlinkMetadata).type != .symlink then
        if let .ok entry ← readEntry inner then
          entries := insertNamed inner.fileName.toList entry entries
    return .ok (.directory entries)
  else if ← place.path.pathExists then
    let bytes ← IO.FS.readBinFile place.path
    return .ok (.file ((String.fromUTF8? bytes).map String.toList))
  else return .error .notFound

def readPaths (paths : List Text) : IO FileSystem := do
  let entries ← paths.mapM fun path => do
    return (path, ← readEntry ⟨".", String.ofList path⟩)
  return fun path => (lookupNamed path entries).getD (.error .notFound)

/-- Writes a file by way of a new file beside it, so that it is never there in part. -/
def replaceFile (path text : Text) : IO Unit := do
  let target := String.ofList path
  let temporary := target ++ ".tmp"
  IO.FS.writeFile temporary (String.ofList text)
  IO.FS.rename temporary target

end JavaRecords

open JavaRecords in
/-- Runs the program. -/
def main (args : List String) : IO UInt32 := do
  let arguments := args.map String.toList
  let configPath := (← IO.getEnv "RECORDIFY_CONFIG_PATH").map String.toList
  let paths := match Command.parse arguments with
    | .ok command => command.paths configPath
    | .error _ => []
  let outcome := (World.mk (← readPaths paths) configPath).run arguments
  for (path, text) in outcome.writes do
    replaceFile path text
  IO.print outcome.stdout
  IO.eprint outcome.stderr
  return outcome.exitCode.toUInt32
