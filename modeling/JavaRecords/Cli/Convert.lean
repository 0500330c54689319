import JavaRecords.Cli.Sources
import JavaRecords.Json.Report

set_option autoImplicit false

namespace JavaRecords

/-- The conversions of a run, with what is needed to report on them. -/
structure Conversions where
  root : Text
  config : Config
  warnings : List String
  files : List FileConversion

/-- Reads the settings and converts all sources. Warnings are printed even if the sources cannot be
read. -/
def World.convert (world : World) (path : Text) (explicit : Option Text) :
    Except Outcome Conversions :=
  let root := world.runRoot path
  match world.settings root explicit with
  | .error failure => .error ⟨2, "", lines [failure.message], []⟩
  | .ok (config, warnings) =>
      match world.sources config.files path with
      | .error failure => .error ⟨2, "", lines (warnings ++ [failure.message]), []⟩
      | .ok sources => .ok ⟨root, config, warnings, convertFiles sources⟩

/-- The exit code of a run: one if a class failed or a file could not be parsed. -/
def BatchSummary.exitCode (summary : BatchSummary) : Nat :=
  if 0 < summary.failedClasses || 0 < summary.unparsableFiles then 1 else 0

structure FileReport where
  path : Text
  changed : Bool
  error : Option String
  diff : Option Text
  classes : List ClassReport

namespace FileReport

def ofConversion (root : Text) (file : FileConversion) (diff : Option Text) : FileReport where
  path := Path.relative root file.path
  changed := file.isChanged
  error := match file.result with
    | .error error => some error.message
    | .ok _ => none
  diff := diff
  classes := match file.result with
    | .error _ => []
    | .ok conversion => conversion.reports

def placeOf (path : Text) (line : Nat) : String := String.ofList path ++ ":" ++ toString line

/-- The lines about a class: its outcome unless it is unchanged, and then the diagnostics. -/
def classLines (path : Text) (report : ClassReport) : List String :=
  let place := placeOf path report.line
  let name := "`" ++ String.ofList report.name ++ "`"
  let outcome := match report.outcome with
    | .converted .. => [place ++ ": " ++ name ++ " converted to record"]
    | .failed violation => [place ++ ": error: " ++ name ++ ": " ++ violation.message]
    | .unchanged _ => []
  outcome ++ report.diagnostics.map fun diagnostic =>
    place ++ ": warning: " ++ diagnostic.message

/-- The report in words, followed by the diff. -/
def text (report : FileReport) : String :=
  let head := match report.error with
    | some error => [String.ofList report.path ++ ": error: " ++ error]
    | none => report.classes.flatMap (classLines report.path)
  lines head ++ String.ofList (report.diff.getD [])

def toJson (report : FileReport) : Json :=
  let optional (name : String) (value : Option Json) : List (String × Json) :=
    value.toList.map fun value => (name, value)
  .obj ([("path", .text report.path), ("changed", .bool report.changed)]
    ++ optional "error" (report.error.map .str)
    ++ optional "diff" (report.diff.map .text)
    ++ [("classes", .arr (report.classes.map ClassReport.toJson))])

end FileReport

namespace BatchSummary

def toJson (summary : BatchSummary) : Json :=
  .obj [("files", .num summary.files), ("changed_files", .num summary.changedFiles),
    ("rewritten_classes", .num summary.convertedClasses),
    ("failed_classes", .num summary.failedClasses),
    ("unparsable_files", .num summary.unparsableFiles)]

def line (summary : BatchSummary) (dryRun : Bool) : String :=
  "summary: " ++ toString summary.files ++ " files, " ++ toString summary.changedFiles
    ++ (if dryRun then " would change, " else " changed, ")
    ++ toString summary.convertedClasses ++ " classes converted, "
    ++ toString summary.failedClasses ++ " failed, "
    ++ toString summary.unparsableFiles ++ " unparsable"

end BatchSummary

/-- Converts the classes below a path in place, or shows what would change. -/
def World.runConvert (world : World) (path : Text) (dryRun json : Bool) (config : Option Text) :
    Outcome :=
  match world.convert path config with
  | .error outcome => outcome
  | .ok conversions =>
      let summary := summarize conversions.files
      let reports := conversions.files.map fun file =>
        let preview :=
          if dryRun then file.preview? conversions.root conversions.config.output.diffContext
          else none
        FileReport.ofConversion conversions.root file (preview.map FilePreview.diff)
      let writes :=
        if dryRun then []
        else conversions.files.filterMap fun file =>
          file.output?.map fun output => (file.path, output)
      let report :=
        if json then
          lines [(Json.obj [("dry_run", .bool dryRun), ("summary", summary.toJson),
            ("files", .arr (reports.map FileReport.toJson))]).pretty]
        else String.join (reports.map FileReport.text) ++ lines [summary.line dryRun]
      ⟨summary.exitCode, report, lines conversions.warnings, writes⟩

/-- A class, and why it cannot become a record, if it cannot. -/
structure CheckEntry where
  path : Text
  name : Text
  line : Nat
  reason : Option String

namespace CheckEntry

def ofReport (path : Text) (report : ClassReport) : CheckEntry where
  path := path
  name := report.name
  line := report.line
  reason := match report.outcome with
    | .converted .. => none
    | .unchanged reason => some reason.message
    | .failed violation => some violation.message

def text (entry : CheckEntry) : String :=
  FileReport.placeOf entry.path entry.line ++ ": `" ++ String.ofList entry.name ++ "`: "
    ++ match entry.reason with
      | none => "eligible"
      | some reason => "not eligible: " ++ reason

def toJson (entry : CheckEntry) : Json :=
  .obj ([("path", .text entry.path), ("name", .text entry.name), ("line", .num entry.line),
      ("eligible", .bool entry.reason.isNone)]
    ++ entry.reason.toList.map fun reason => ("reason", .str reason))

end CheckEntry

/-- Tells which classes below a path could become records. -/
def World.runCheck (world : World) (path : Text) (json : Bool) (config : Option Text) : Outcome :=
  match world.convert path config with
  | .error outcome => outcome
  | .ok conversions =>
      let reports := conversions.files.map fun file =>
        FileReport.ofConversion conversions.root file none
      let entries := reports.flatMap fun report =>
        report.classes.map (CheckEntry.ofReport report.path)
      let errors := reports.filterMap fun report =>
        report.error.map fun error => String.ofList report.path ++ ": error: " ++ error
      let eligible := (entries.filter fun entry => entry.reason.isNone).length
      let report :=
        if json then lines [(Json.arr (entries.map CheckEntry.toJson)).pretty]
        else
          lines (errors ++ entries.map CheckEntry.text
            ++ ["summary: " ++ toString eligible ++ " of " ++ toString entries.length
              ++ " classes eligible"])
      ⟨(summarize conversions.files).exitCode, report, lines conversions.warnings, []⟩

end JavaRecords
