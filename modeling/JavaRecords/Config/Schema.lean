import JavaRecords.Config.Basic
import JavaRecords.Json.Value

set_option autoImplicit false

namespace JavaRecords.Schema

def texts (items : List Text) : Json := .arr (items.map .text)

/-- A setting: what it is for, its default and its type. -/
def setting (description : String) (default : Json) (type : List (String × Json)) : Json :=
  .obj ([("description", .str description), ("default", default)] ++ type)

def boolean : List (String × Json) := [("type", .str "boolean")]

def text : List (String × Json) := [("type", .str "string")]

def listOfTexts : List (String × Json) := [("type", .str "array"), ("items", .obj text)]

/-- A whole number that is not negative. -/
def count : List (String × Json) :=
  [("type", .str "integer"), ("format", .str "uint"), ("minimum", .decimal 0)]

/-- An object with the given settings and no others. -/
def closedObject (properties : List (String × Json)) : Json :=
  .obj [("type", .str "object"), ("properties", .obj properties),
    ("additionalProperties", .bool false)]

def sectionOf (description : List (String × Json)) (default : List (String × Json))
    (definition : String) : Json :=
  .obj (description ++ [("default", .obj default),
    ("allOf", .arr [.obj [("$ref", .str ("#/definitions/" ++ definition))]])])

def files (defaults : FilesConfig) : Json :=
  closedObject [
    ("exclude", setting "Glob patterns of files to skip even when included."
      (texts defaults.excluded) listOfTexts),
    ("follow_links", setting "Follow symbolic links while walking directories."
      (.bool defaults.followLinks) boolean),
    ("include", setting "Glob patterns, relative to the run root, of files to convert."
      (texts defaults.included) listOfTexts)]

def logging (defaults : LoggingConfig) : Json :=
  closedObject [
    ("json", setting "Emit logs as JSON lines." (.bool defaults.json) boolean),
    ("level", setting "A level (`info`, `debug`, ...) or a full `EnvFilter` directive string."
      (.text defaults.level) text),
    ("stderr", setting "Write logs to stderr. Disabled, logging is off entirely."
      (.bool defaults.stderr) boolean)]

def output (defaults : OutputConfig) : Json :=
  closedObject [
    ("diff_context", setting "Unchanged lines shown around each hunk of a dry-run diff."
      (.num defaults.diffContext) count)]

/-- The schema of all settings with the given defaults. -/
def ofDefaults (defaults : Config) : Json :=
  .obj [("$schema", .str "http://json-schema.org/draft-07/schema#"),
    ("title", .str "RecordifyConfig"),
    ("type", .str "object"),
    ("properties", .obj [
      ("files", sectionOf [("description", .str "Which files a directory run visits.")]
        [("exclude", texts defaults.files.excluded),
          ("follow_links", .bool defaults.files.followLinks),
          ("include", texts defaults.files.included)] "FilesConfig"),
      ("logging", sectionOf []
        [("json", .bool defaults.logging.json), ("level", .text defaults.logging.level),
          ("stderr", .bool defaults.logging.stderr)] "LoggingConfig"),
      ("output", sectionOf [("description", .str "Report and diff rendering.")]
        [("diff_context", .num defaults.output.diffContext)] "OutputConfig")]),
    ("additionalProperties", .bool false),
    ("definitions", .obj [("FilesConfig", files defaults.files),
      ("LoggingConfig", logging defaults.logging), ("OutputConfig", output defaults.output)])]

end JavaRecords.Schema
