import JavaRecords.Text.Basic

set_option autoImplicit false

namespace JavaRecords

/-- What the program is asked to do. -/
inductive Command where
  | run (path : Text) (dryRun json : Bool) (config : Option Text)
  | check (path : Text) (json : Bool) (config : Option Text)
  | test (directory : Text) (json : Bool)
  | schema
  | version
  | help
  deriving DecidableEq, Repr

/-- Why arguments are no command. -/
inductive UsageError where
  | missingCommand
  | unknownCommand (name : Text)
  | unexpected (argument : Text)
  | repeated (option : Text)
  | missingValue (option : Text)
  | missingPath
  deriving DecidableEq, Repr

def UsageError.message : UsageError → String
  | .missingCommand => "error: a command is required"
  | .unknownCommand name => "error: unrecognized subcommand '" ++ String.ofList name ++ "'"
  | .unexpected argument => "error: unexpected argument '" ++ String.ofList argument ++ "' found"
  | .repeated option =>
      "error: the argument '" ++ String.ofList option ++ "' cannot be used multiple times"
  | .missingValue option =>
      "error: a value is required for '" ++ String.ofList option ++ "' but none was supplied"
  | .missingPath => "error: a path is required"

inductive CommandOption where
  | dryRun
  | json
  | config
  deriving DecidableEq, Repr

def CommandOption.name : CommandOption → Text
  | .dryRun => "--dry-run".toList
  | .json => "--json".toList
  | .config => "--config".toList

/-- The arguments of a command as far as they have been read. -/
structure Arguments where
  path : Option Text := none
  dryRun : Bool := false
  json : Bool := false
  config : Option Text := none
  deriving DecidableEq, Repr

namespace Arguments

/-- Takes the path. There is one only, and it is not empty. -/
def setPath (arguments : Arguments) (path : Text) : Except UsageError Arguments :=
  if path.isEmpty then .error (.missingValue path)
  else if arguments.path.isSome then .error (.unexpected path)
  else .ok { arguments with path := some path }

/-- Takes an option without a value. -/
def setFlag (arguments : Arguments) : CommandOption → Except UsageError Arguments
  | .dryRun =>
      if arguments.dryRun then .error (.repeated CommandOption.dryRun.name)
      else .ok { arguments with dryRun := true }
  | .json =>
      if arguments.json then .error (.repeated CommandOption.json.name)
      else .ok { arguments with json := true }
  | .config => .error (.missingValue CommandOption.config.name)

def setConfig (arguments : Arguments) (value : Text) : Except UsageError Arguments :=
  if value.isEmpty then .error (.missingValue CommandOption.config.name)
  else if arguments.config.isSome then .error (.repeated CommandOption.config.name)
  else .ok { arguments with config := some value }

/-- Takes what follows two hyphens. -/
def setRest (arguments : Arguments) (paths : List Text) : Except UsageError Arguments :=
  paths.foldlM setPath arguments

end Arguments

def looksLikeOption (argument : Text) : Bool :=
  argument.head? == some '-' && argument.length > 1

/-- Reads arguments with the options that a command has. `awaited` says that the file with the
settings comes next. There is no result if help is asked for. -/
def readArguments (options : List CommandOption) :
    List Text → (awaited : Bool) → Arguments → Except UsageError (Option Arguments)
  | [], true, _ => .error (.missingValue CommandOption.config.name)
  | [], false, arguments => .ok (some arguments)
  | value :: rest, true, arguments =>
      if looksLikeOption value then .error (.missingValue CommandOption.config.name)
      else do readArguments options rest false (← arguments.setConfig value)
  | argument :: rest, false, arguments =>
      if argument = "--".toList then (arguments.setRest rest).map some
      else if argument = "--help".toList || argument = "-h".toList then .ok none
      else if looksLikeOption argument then
        match options.find? fun option => option.name == argument.takeWhile (· ≠ '=') with
        | none => .error (.unexpected argument)
        | some option =>
            match option, argument.dropWhile (· ≠ '=') with
            | .config, '=' :: value => do
                readArguments options rest false (← arguments.setConfig value)
            | .config, _ => readArguments options rest true arguments
            | _, '=' :: _ => .error (.unexpected argument)
            | _, _ => do readArguments options rest false (← arguments.setFlag option)
      else do readArguments options rest false (← arguments.setPath argument)

def readWithPath (options : List CommandOption) (arguments : List Text)
    (command : Text → Arguments → Command) : Except UsageError Command := do
  match ← readArguments options arguments false {} with
  | none => .ok .help
  | some arguments =>
      match arguments.path with
      | none => .error .missingPath
      | some path => .ok (command path arguments)

/-- The command of a list of arguments. Options may stand before and after the path, each once, and
nothing after two hyphens is one. Of several letters after a single hyphen the first decides. -/
def Command.parse (arguments : List Text) : Except UsageError Command :=
  match arguments with
  | [] => .error .missingCommand
  | first :: rest =>
      match String.ofList first with
      | "run" => readWithPath [.dryRun, .json, .config] rest fun path given =>
          .run path given.dryRun given.json given.config
      | "check" => readWithPath [.json, .config] rest fun path given =>
          .check path given.json given.config
      | "test" => readWithPath [.json] rest fun directory given => .test directory given.json
      | "schema" => do
          match ← readArguments [] rest false {} with
          | none => .ok .help
          | some given =>
              match given.path with
              | none => .ok .schema
              | some argument => .error (.unexpected argument)
      | "--version" => .ok .version
      | "--help" | "help" => .ok .help
      | _ =>
          match first with
          | '-' :: 'V' :: _ => .ok .version
          | '-' :: 'h' :: _ => .ok .help
          | '-' :: _ :: _ => .error (.unexpected first)
          | _ => .error (.unknownCommand first)

end JavaRecords
