import JavaRecords.Config.Decode
import JavaRecords.Files.Entry
import JavaRecords.Toml.Parser

set_option autoImplicit false

namespace JavaRecords

/-- Why settings cannot be read. -/
inductive ConfigError where
  | unreadable (path : Text) (cause : ReadError)
  | malformed
  | mistyped (error : DecodeError)
  | glob (error : GlobError)
  deriving Repr

def ConfigError.message : ConfigError → String
  | .unreadable path cause =>
      "failed to read config file " ++ String.ofList path ++ ": " ++ cause.message
  | .malformed => "failed to parse toml config: invalid document"
  | .mistyped error => "failed to parse toml config: " ++ error.message
  | .glob error => error.message

/-- What is odd about settings that can be used all the same. -/
structure ConfigDiagnostics where
  unknownKeys : List Text
  warnings : List String
  deriving DecidableEq, Repr

def ConfigDiagnostics.isEmpty (diagnostics : ConfigDiagnostics) : Bool :=
  diagnostics.unknownKeys.isEmpty && diagnostics.warnings.isEmpty

namespace Config

/-- The warnings about settings: the filter of log messages may be invalid. -/
def warnings (config : Config) : List String :=
  if (LogFilter.parse? (LogFilter.normalize config.logging.level)).isSome then []
  else
    ["logging.level `" ++ String.ofList config.logging.level
      ++ "` is not a valid filter; falling back to `warn`"]

/-- Reads settings. Their patterns must be valid too. -/
def parse (text : Text) : Except ConfigError (Config × ConfigDiagnostics) :=
  match Toml.parse? text with
  | none => .error .malformed
  | some entries =>
      match decodeConfig entries with
      | .error error => .error (.mistyped error)
      | .ok (config, unknownKeys) =>
          match config.files.matcher with
          | .error error => .error (.glob error)
          | .ok _ => .ok (config, ⟨unknownKeys, config.warnings⟩)

def load (files : FileSystem) (path : Text) : Except ConfigError (Config × ConfigDiagnostics) :=
  match files.read path with
  | .error cause => .error (.unreadable path cause)
  | .ok text => parse text

/-- The names of a file with settings in the root of a run, the preferred one first. -/
def fileNames : List Text := ["recordify.toml".toList, ".recordify.toml".toList]

/-- The file with the settings of a run: the one that the environment names, relative to the root,
or one with a usual name in the root. -/
def discover? (files : FileSystem) (environment : Option Text) (root : Text) : Option Text :=
  match environment with
  | some path => some (Path.join root path)
  | none => (fileNames.map (Path.join root)).find? files.isFile

def loadForRoot (files : FileSystem) (environment : Option Text) (root : Text) :
    Except ConfigError (Config × Option Text) :=
  match discover? files environment root with
  | none => .ok ({}, none)
  | some path => (load files path).map fun (config, _) => (config, some path)

end Config

end JavaRecords
