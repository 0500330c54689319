import JavaRecords.Text.Basic

set_option autoImplicit false

namespace JavaRecords

inductive LogLevel where
  | off
  | error
  | warn
  | info
  | debug
  | trace
  deriving DecidableEq, Repr

namespace LogLevel

def all : List LogLevel := [off, error, warn, info, debug, trace]

def name : LogLevel → String
  | off => "off"
  | error => "error"
  | warn => "warn"
  | info => "info"
  | debug => "debug"
  | trace => "trace"

/-- The value of a number in decimal digits, which may have a plus sign. -/
def number? (text : Text) : Option Nat :=
  let digits := match text with
    | '+' :: rest => rest
    | _ => text
  if digits.isEmpty || !digits.all Char.isDigit then none
  else some (digits.foldl (fun value c => 10 * value + (c.toNat - '0'.toNat)) 0)

/-- The level that a text names, in any case of its letters or as a number from zero. -/
def ofText? (text : Text) : Option LogLevel :=
  match number? text with
  | some number => all[number]?
  | none => all.find? fun level => level.name.toList == Text.asciiLower text

end LogLevel

/-- A level for the messages of one target, or of all. -/
structure LogDirective where
  target : Option Text
  level : LogLevel
  deriving DecidableEq, Repr

namespace LogDirective

/-- Whether a directive may start with a character. -/
def isStart (c : Char) : Bool := Text.isAlphanumeric c || c == '-' || c == ':' || c == '_'

/-- Reads a directive. The equals sign is looked for in the trimmed text, but its place is counted
from the start of the text as given. -/
def read? (part : Text) : Option LogDirective := do
  let scanned := part.trim
  let first ← scanned.head?
  guard (isStart first && !scanned.contains '[')
  if scanned.contains '=' then
    let (target, rest) ← Text.splitAt? (Text.byteSize (scanned.takeWhile (· ≠ '='))) part
    match rest.tail with
    | [] => some ⟨some target, .trace⟩
    | level => (LogLevel.ofText? level).map fun level => ⟨some target, level⟩
  else
    match LogLevel.ofText? part with
    | some level => some ⟨none, level⟩
    | none => some ⟨some part, .trace⟩

def text (directive : LogDirective) : Text :=
  match directive.target with
  | none => directive.level.name.toList
  | some target => target ++ ['='] ++ directive.level.name.toList

end LogDirective

/-- The directives of a filter, one for each target: of two for one target the later one counts. -/
abbrev LogFilter := List LogDirective

namespace LogFilter

/-- Adds a directive in place of the one for the same target. -/
def insert (filter : LogFilter) (directive : LogDirective) : LogFilter :=
  filter.filter (fun other => other.target ≠ directive.target) ++ [directive]

/-- Reads a filter. Empty parts are skipped. -/
def parse? (text : Text) : Option LogFilter := do
  let parts := (Text.splitOn ',' text).filter fun part => !part.isEmpty
  let directives ← parts.mapM LogDirective.read?
  return directives.foldl insert []

/-- The text of the filter for a configured level: a level in small letters if it names one, the
trimmed text otherwise, and warnings if it is blank. -/
def normalize (level : Text) : Text :=
  let trimmed := level.trim
  match String.ofList (Text.asciiLower trimmed) with
  | "" => "warn".toList
  | "trace" => "trace".toList
  | "debug" => "debug".toList
  | "info" => "info".toList
  | "warn" | "warning" => "warn".toList
  | "error" => "error".toList
  | "off" | "none" => "off".toList
  | _ => trimmed

/-- The filter of a configured level: warnings if it cannot be read. -/
def ofLevel (level : Text) : LogFilter := (parse? (normalize level)).getD [⟨none, .warn⟩]

/-- The filter of a configured level together with the one of the environment, if that is set. If
the two cannot be read as one text, the environment comes first. -/
def effective (level : Text) (environment : Option Text) : LogFilter :=
  match environment.map Text.trim with
  | none | some [] => ofLevel level
  | some directives =>
      (parse? (normalize level ++ [','] ++ directives) <|> parse? directives).getD (ofLevel level)

end LogFilter

end JavaRecords
