import JavaRecords.Cli.Sources
import JavaRecords.Json.Value
import JavaRecords.Text.Listing

set_option autoImplicit false

namespace JavaRecords

structure CaseResult where
  name : Text
  failures : List Text
  deriving DecidableEq, Repr

namespace CaseResult

def passed (result : CaseResult) : Bool := result.failures.isEmpty

def toJson (result : CaseResult) : Json :=
  .obj [("name", .text result.name), ("passed", .bool result.passed),
    ("failures", .arr (result.failures.map .text))]

/-- The lines of a text. A carriage return before a line feed belongs to neither line. -/
def linesOf (text : Text) : List Text :=
  let parts := Text.splitOn '\n' text
  let ended := parts.dropLast.map fun line =>
    if line.getLast? == some '\r' then line.dropLast else line
  match parts.getLast? with
  | none | some [] => ended
  | some last => ended ++ [last]

def text (result : CaseResult) : List String :=
  ((if result.passed then "PASS " else "FAIL ") ++ String.ofList result.name)
    :: (result.failures.flatMap linesOf).map fun line => "    " ++ String.ofList line

end CaseResult

def readTree (path : Text) (directory : Entry) : Except Failure (List (Text × Text)) :=
  (directory.filesBelow (fun _ => false) []).foldlM (fun texts (relative, text) =>
    match (Entry.file text).read with
    | .error cause => .error (.unreadable (Path.join path relative) cause)
    | .ok text => .ok (insertNamed (Path.withSlashes relative) text texts)) []

def compareFile (context : Nat) (actual expected : List (Text × Text)) (path : Text) : List Text :=
  match lookupNamed path actual, lookupNamed path expected with
  | some _, none => [path ++ ": not in expected/".toList]
  | none, some _ => [path ++ ": expected but not produced".toList]
  | some got, some want =>
      if got = want then []
      else [path ++ ": output differs\n".toList ++ Diff.unified path want got context]
  | none, none => []

/-- Converts the files of a case and compares them with the expected ones. A file that cannot be
parsed is a failure and stays as it is. -/
def compareFiles (context : Nat) (inputs expected : List (Text × Text)) : List Text :=
  let converted := inputs.map fun (path, text) =>
    match convertSource text with
    | .ok conversion => ((path, conversion.output), [])
    | .error error => ((path, text), [path ++ ": ".toList ++ error.message.toList])
  let actual := converted.map Prod.fst
  let paths := sortNames ((actual ++ expected).map Prod.fst)
  converted.flatMap Prod.snd ++ paths.flatMap (compareFile context actual expected)

def runCase (context : Nat) (path : Text) (name : Text) (entry : Entry) :
    Except Failure (Option CaseResult) :=
  let place := Path.join path name
  match entry with
  | .file _ => .ok none
  | .directory entries =>
      match lookupNamed "input".toList entries with
      | some (.directory inputs) => do
          let inputs ← readTree (Path.join place "input".toList) (.directory inputs)
          match lookupNamed "expected".toList entries with
          | some (.directory expected) =>
              let expected ← readTree (Path.join place "expected".toList) (.directory expected)
              return some ⟨name, compareFiles context inputs expected⟩
          | _ => return some ⟨name, ["missing `expected/` directory".toList]⟩
      | _ => .ok none

/-- Runs the cases in a directory. There must be one. -/
def World.cases (world : World) (context : Nat) (directory : Text) :
    Except Failure (List CaseResult) :=
  match world.files directory with
  | .error cause => .error (.unreadable directory cause)
  | .ok (.file _) => .error (.unreadable directory .notADirectory)
  | .ok (.directory entries) => do
      let results ← entries.mapM fun (name, entry) => runCase context directory name entry
      match results.filterMap id with
      | [] => .error (.noCases directory)
      | results => return results

def World.runTest (world : World) (directory : Text) (json : Bool) : Outcome :=
  match world.settings directory none with
  | .error failure => ⟨2, "", lines [failure.message], []⟩
  | .ok (config, warnings) =>
      match world.cases config.output.diffContext directory with
      | .error failure => ⟨2, "", lines (warnings ++ [failure.message]), []⟩
      | .ok results =>
          let passed := (results.filter CaseResult.passed).length
          let failed := results.length - passed
          let report :=
            if json then
              lines [(Json.obj [("passed", .num passed), ("failed", .num failed),
                ("cases", .arr (results.map CaseResult.toJson))]).pretty]
            else
              lines (results.flatMap CaseResult.text
                ++ ["summary: " ++ toString passed ++ " passed, " ++ toString failed ++ " failed"])
          ⟨if 0 < failed then 1 else 0, report, lines warnings, []⟩

end JavaRecords
