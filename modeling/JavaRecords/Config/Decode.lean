import JavaRecords.Config.Basic
import JavaRecords.Decimal.Shortest
import JavaRecords.Text.Listing
import JavaRecords.Text.Printable
import JavaRecords.Toml.Value

set_option autoImplicit false

namespace JavaRecords

/-- Why a value cannot be a setting. -/
inductive DecodeError where
  | invalidType (found : Toml.Value) (expected : String)
  | negative (value : Int)
  deriving Repr

namespace DecodeError

/-- The digits of a number in base sixteen. -/
def hexDigits (n : Nat) : List Char := Nat.toDigits 16 n

/-- A character inside quotes. One that is not printable is written as its code point. -/
def quoteChar (c : Char) : List Char :=
  match c with
  | '"' => ['\\', '"']
  | '\\' => ['\\', '\\']
  | '\n' => ['\\', 'n']
  | '\r' => ['\\', 'r']
  | '\t' => ['\\', 't']
  | c =>
      if c.toNat = 0 then ['\\', '0']
      else if Text.isPrintable c then [c]
      else ['\\', 'u', '\x7b'] ++ hexDigits c.toNat ++ ['\x7d']

def describe : Toml.Value → String
  | .string text => "string \"" ++ String.ofList (text.flatMap quoteChar) ++ "\""
  | .integer value => "integer `" ++ toString value ++ "`"
  | .float value => "floating point `" ++ value.text ++ "`"
  | .boolean value => "boolean `" ++ (if value then "true" else "false") ++ "`"
  | .array _ => "sequence"
  | .dateTime _ | .table _ => "map"

def message : DecodeError → String
  | .invalidType found expected => "invalid type: " ++ describe found ++ ", expected " ++ expected
  | .negative value => "invalid value: integer `" ++ toString value ++ "`, expected usize"

end DecodeError

/-- A setting of a section: its name and how a value changes the section. -/
structure Setting (σ : Type) where
  name : String
  apply : Toml.Value → σ → Except DecodeError σ

namespace Setting

def asText : Toml.Value → Except DecodeError Text
  | .string text => .ok text
  | value => .error (.invalidType value "a string")

def asBool : Toml.Value → Except DecodeError Bool
  | .boolean value => .ok value
  | value => .error (.invalidType value "a boolean")

def asTexts : Toml.Value → Except DecodeError (List Text)
  | .array items => items.mapM asText
  | value => .error (.invalidType value "a sequence")

def asCount : Toml.Value → Except DecodeError Nat
  | .integer value => if value < 0 then .error (.negative value) else .ok value.toNat
  | value => .error (.invalidType value "usize")

/-- A setting that is read as a value of some type and then stored. -/
def of {σ α : Type} (name : String) (read : Toml.Value → Except DecodeError α)
    (store : σ → α → σ) : Setting σ :=
  ⟨name, fun value state => (read value).map (store state)⟩

end Setting

/-- The key under which a date offers its text when a table is expected. -/
def dateTimeKey : Text := "$__toml_private_datetime".toList

/-- Applies the entries of a table. The names that are not known come last first. -/
def applyEntries {σ : Type} (settings : List (Setting σ)) :
    List (Text × Toml.Value) → σ × List Text → Except DecodeError (σ × List Text)
  | [], state => .ok state
  | (key, value) :: rest, (state, unknown) =>
      match settings.find? fun setting => setting.name.toList == key with
      | none => applyEntries settings rest (state, key :: unknown)
      | some setting => do
          let state ← setting.apply value state
          applyEntries settings rest (state, unknown)

/-- Applies values to settings in order. Surplus values are ignored. -/
def applyItems {σ : Type} :
    List (Setting σ) → List Toml.Value → σ → Except DecodeError σ
  | setting :: settings, value :: values, state => do
      let state ← setting.apply value state
      applyItems settings values state
  | _, _, state => .ok state

/-- The section that a value gives, and the names in it that are not known. -/
def decodeSection {σ : Type} (title : String) (settings : List (Setting σ)) (start : σ)
    (value : Toml.Value) : Except DecodeError (σ × List Text) :=
  match value with
  | .table entries => applyEntries settings entries (start, [])
  | .array items => (applyItems settings items start).map fun state => (state, [])
  | .dateTime _ => .ok (start, [dateTimeKey])
  | value => .error (.invalidType value ("struct " ++ title))

def fileSettings : List (Setting FilesConfig) := [
  .of "include" Setting.asTexts fun config included => { config with included },
  .of "exclude" Setting.asTexts fun config excluded => { config with excluded },
  .of "follow_links" Setting.asBool fun config followLinks => { config with followLinks }]

def loggingSettings : List (Setting LoggingConfig) := [
  .of "level" Setting.asText fun config level => { config with level },
  .of "json" Setting.asBool fun config json => { config with json },
  .of "stderr" Setting.asBool fun config stderr => { config with stderr }]

def outputSettings : List (Setting OutputConfig) := [
  .of "diff_context" Setting.asCount fun config diffContext => { config with diffContext }]

/-- The settings of a section, which also collect the names in it that are not known. -/
def sectionSetting {σ : Type} (name title : String) (settings : List (Setting σ)) (start : σ)
    (store : Config → σ → Config) : Setting (Config × List Text) :=
  ⟨name, fun value (config, unknown) => do
    let (part, keys) ← decodeSection title settings start value
    return (store config part, keys.map (fun key => name.toList ++ ['.'] ++ key) ++ unknown)⟩

def configSettings : List (Setting (Config × List Text)) := [
  sectionSetting "files" "FilesConfig" fileSettings {} fun config files => { config with files },
  sectionSetting "logging" "LoggingConfig" loggingSettings {} fun config logging =>
    { config with logging },
  sectionSetting "output" "OutputConfig" outputSettings {} fun config output =>
    { config with output }]

/-- The path of a key as it is reported: dots at the start are left out, and a part of digits after
another part is an index in brackets. -/
def keyPath (path : Text) : Text :=
  match Text.splitOn '.' (path.dropWhile (· == '.')) with
  | [] => []
  | first :: parts => parts.foldl (fun shown part =>
      if !part.isEmpty && part.all Char.isDigit then shown ++ ['['] ++ part ++ [']']
      else if shown.isEmpty then part
      else shown ++ ['.'] ++ part) first

/-- The settings of a document, and the paths of the keys that are not known, in order and each
once. -/
def decodeConfig (entries : List (Text × Toml.Value)) :
    Except DecodeError (Config × List Text) := do
  let ((config, inner), outer) ← applyEntries configSettings entries (({}, []), [])
  return (config, sortNames ((outer ++ inner).map keyPath))

end JavaRecords
