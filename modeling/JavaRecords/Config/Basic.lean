import JavaRecords.Config.LogFilter
import JavaRecords.Files.Matcher

set_option autoImplicit false

namespace JavaRecords

/-- Which files a run over a directory visits. -/
structure FilesConfig where
  /-- Patterns of the files to convert. -/
  included : List Text := ["**/*.java".toList]
  /-- Patterns of the files to leave out. -/
  excluded : List Text := ["**/target/**".toList, "**/build/**".toList, "**/.git/**".toList]
  followLinks : Bool := false
  deriving DecidableEq, Repr

def FilesConfig.matcher (config : FilesConfig) : Except GlobError FileMatcher :=
  FileMatcher.ofPatterns config.included config.excluded

structure LoggingConfig where
  /-- A level, or the directives of a filter. -/
  level : Text := "warn".toList
  json : Bool := false
  /-- Whether anything is logged at all. -/
  stderr : Bool := true
  deriving DecidableEq, Repr

/-- How reports are written. -/
structure OutputConfig where
  /-- The unchanged lines around each change of a diff. -/
  diffContext : Nat := 3
  deriving DecidableEq, Repr

structure Config where
  files : FilesConfig := {}
  logging : LoggingConfig := {}
  output : OutputConfig := {}
  deriving DecidableEq, Repr

end JavaRecords
