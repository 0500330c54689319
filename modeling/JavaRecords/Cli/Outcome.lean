import JavaRecords.Config.Load

set_option autoImplicit false

namespace JavaRecords

/-- The result of a command. -/
structure Outcome where
  exitCode : Nat
  stdout : String := ""
  stderr : String := ""
  /-- The files that are written, with their paths and new texts. -/
  writes : List (Text × Text) := []
  deriving DecidableEq, Repr

def lines (texts : List String) : String := String.join (texts.map fun text => text ++ "\n")

/-- Why a command cannot do its work. -/
inductive Failure where
  | config (path : Text) (error : ConfigError)
  | glob (error : GlobError)
  | missing (path : Text)
  | unreadable (path : Text) (cause : ReadError)
  | noCases (directory : Text)
  deriving Repr

/-- The reason in full. The cause of a file with settings that cannot be read is given twice: once
by the error, and once as what lies behind it. -/
def Failure.message : Failure → String
  | .config path error =>
      let behind := match error with
        | .unreadable _ cause => ": " ++ cause.message
        | _ => ""
      "failed to load config " ++ String.ofList path ++ ": " ++ error.message ++ behind
  | .glob error => error.message
  | .missing path => String.ofList path ++ " does not exist"
  | .unreadable path cause => "failed to read " ++ String.ofList path ++ ": " ++ cause.message
  | .noCases directory =>
      "no fixture cases (directories with an `input/` tree) under " ++ String.ofList directory

/-- What a command can see: the files, and the file with settings that the environment names. -/
structure World where
  files : FileSystem
  configPath : Option Text := none

/-- The warnings about settings, as they are printed. -/
def configWarnings (path : Text) (diagnostics : ConfigDiagnostics) : List String :=
  let warning (text : String) := "warning: " ++ String.ofList path ++ ": " ++ text
  diagnostics.unknownKeys.map (fun key =>
      warning ("unknown config key `" ++ String.ofList key ++ "`"))
    ++ diagnostics.warnings.map warning

/-- The settings of a run, from the file that was asked for or the one that is found, with the
warnings about them. -/
def World.settings (world : World) (root : Text) (explicit : Option Text) :
    Except Failure (Config × List String) :=
  match explicit <|> Config.discover? world.files world.configPath root with
  | none => .ok ({}, [])
  | some path =>
      match Config.load world.files path with
      | .error error => .error (.config path error)
      | .ok (config, diagnostics) => .ok (config, configWarnings path diagnostics)

end JavaRecords
