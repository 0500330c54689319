import JavaRecords.Conversion.Unit
import JavaRecords.Diff.Unified
import JavaRecords.Files.Path

set_option autoImplicit false

namespace JavaRecords

structure SourceFile where
  path : Text
  text : Text
  deriving DecidableEq, Repr

structure FileConversion where
  path : Text
  source : Text
  result : Except ParseError SourceConversion

namespace FileConversion

def isChanged (file : FileConversion) : Bool :=
  match file.result with
  | .ok conversion => conversion.isChanged
  | .error _ => false

/-- The converted text, if a class became a record. -/
def output? (file : FileConversion) : Option Text :=
  match file.result with
  | .ok conversion => if conversion.isChanged then some conversion.output else none
  | .error _ => none

end FileConversion

def convertFiles (files : List SourceFile) : List FileConversion :=
  files.map fun file => ⟨file.path, file.text, convertSource file.text⟩

/-- What happened to the files and classes of a batch, in numbers. -/
structure BatchSummary where
  files : Nat
  changedFiles : Nat
  convertedClasses : Nat
  failedClasses : Nat
  unparsableFiles : Nat
  deriving DecidableEq, Repr

def reportsOf (files : List FileConversion) : List ClassReport :=
  files.flatMap fun file =>
    match file.result with
    | .ok conversion => conversion.reports
    | .error _ => []

def summarize (files : List FileConversion) : BatchSummary where
  files := files.length
  changedFiles := (files.filter FileConversion.isChanged).length
  convertedClasses := ((reportsOf files).filter fun report => report.outcome.isConverted).length
  failedClasses := ((reportsOf files).filter fun report => report.outcome.isFailed).length
  unparsableFiles := (files.filter fun file => !file.result.isOk).length

/-- What a conversion would change in a file. -/
structure FilePreview where
  /-- The path relative to the root of the run. -/
  path : Text
  source : Text
  modified : Text
  diff : Text
  convertedClasses : Nat
  deriving DecidableEq, Repr

def FileConversion.preview? (file : FileConversion) (root : Text) (context : Nat) :
    Option FilePreview :=
  match file.result with
  | .error _ => none
  | .ok conversion =>
      if conversion.isChanged then
        let path := Path.relative root file.path
        some
          { path
            source := file.source
            modified := conversion.output
            diff := Diff.unified path file.source conversion.output context
            convertedClasses := convertedCount conversion.reports }
      else none

end JavaRecords
