import JavaRecords.Cli.Command
import JavaRecords.Cli.Convert
import JavaRecords.Cli.Fixtures
import JavaRecords.Config.Schema

set_option autoImplicit false

namespace JavaRecords

/-- The text that explains the commands. -/
def usage : List String := [
  "Convert eligible Java classes into records",
  "",
  "Usage: recordify <COMMAND>",
  "",
  "Commands:",
  "  run [--dry-run] [--json] [--config <CONFIG>] <PATH>",
  "  check [--json] [--config <CONFIG>] <PATH>",
  "  test [--json] <DIR>",
  "  schema"]

def World.perform (world : World) : Command → Outcome
  | .run path dryRun json config => world.runConvert path dryRun json config
  | .check path json config => world.runCheck path json config
  | .test directory json => world.runTest directory json
  | .schema => ⟨0, lines [(Schema.ofDefaults {}).pretty], "", []⟩
  | .version => ⟨0, lines ["recordify 0.1.0"], "", []⟩
  | .help => ⟨0, lines usage, "", []⟩

def configPaths (configPath : Option Text) (root : Text) : List Text :=
  match configPath with
  | some path => [Path.join root path]
  | none => Config.fileNames.map (Path.join root)

def Command.paths (configPath : Option Text) : Command → List Text
  | .run path _ _ config | .check path _ config =>
      let parent := match Path.parent path with
        | [] => ['.']
        | parent => parent
      path :: config.toList ++ [path, parent].flatMap (configPaths configPath)
  | .test directory _ => directory :: configPaths configPath directory
  | .schema | .version | .help => []

def World.run (world : World) (arguments : List Text) : Outcome :=
  match Command.parse arguments with
  | .error error => ⟨2, "", lines (error.message :: "" :: usage), []⟩
  | .ok command => world.perform command

end JavaRecords
