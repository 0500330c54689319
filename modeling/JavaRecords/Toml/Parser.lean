import JavaRecords.Toml.Scalar
import JavaRecords.Toml.Table

set_option autoImplicit false

namespace JavaRecords.Toml

/-- Arrays and inline tables are nested, and keys have parts, fewer times than this. -/
def depthLimit : Nat := 80

/-- Whether a character may stand in a key without quotes. -/
def isKeyChar (c : Char) : Bool := Text.isAsciiAlphanumeric c || c == '_' || c == '-'

def readKeyPart : Reader Text
  | '"' :: rest => readBasic rest
  | '\'' :: rest => readLiteral rest
  | text =>
      match text.takeWhile isKeyChar with
      | [] => none
      | part => some (part, text.dropWhile isKeyChar)

/-- A key of at most `limit` parts with dots between them, and blanks around each. -/
def readKey : (limit : Nat) → Reader (List Text)
  | 0, _ => none
  | limit + 1, text => do
      let (part, rest) ← readKeyPart (skipBlanks text)
      match skipBlanks rest with
      | '.' :: rest => (readKey limit rest).map fun (parts, rest) => (part :: parts, rest)
      | rest => some ([part], rest)

/-- A key, an equals sign and a value. -/
def readPairWith (item : Reader Value) : Reader (List Text × Value) := fun text => do
  let (path, rest) ← readKey (depthLimit - 1) text
  let rest ← expect '=' rest
  let (value, rest) ← item (skipBlanks rest)
  return ((path, value), rest)

/-- The rest of an array of at most `limit` values. There may be a comma after the last one. -/
def readItems (item : Reader Value) : (limit : Nat) → Reader (List Value)
  | 0, _ => none
  | limit + 1, text =>
      match skipLayout false text with
      | ']' :: rest => some ([], rest)
      | text => do
          let (value, rest) ← item text
          match skipLayout false rest with
          | ']' :: rest => some ([value], rest)
          | ',' :: rest =>
              (readItems item limit rest).map fun (values, rest) => (value :: values, rest)
          | _ => none

/-- The rest of an inline table of at most `limit` entries that is not empty. -/
def readPairs (item : Reader Value) : (limit : Nat) → Reader (List (List Text × Value))
  | 0, _ => none
  | limit + 1, text => do
      let (pair, rest) ← readPairWith item text
      match skipBlanks rest with
      | '\x7d' :: rest => some ([pair], rest)
      | ',' :: rest => (readPairs item limit rest).map fun (pairs, rest) => (pair :: pairs, rest)
      | _ => none

def inlineTable (pairs : List (List Text × Value)) : Option Value := do
  let table ← pairs.foldlM (fun table (path, value) => Table.insert path value table)
    (Table.mk .declared [])
  return .table (entryValues table.entries)

/-- A value in which arrays and inline tables are nested fewer than `limit` times. -/
def readValue : (limit : Nat) → Reader Value
  | 0, _ => none
  | limit + 1, text =>
      match text with
      | '[' :: rest =>
          if limit = 0 then none
          else (readItems (readValue limit) (rest.length + 1) rest).map fun (items, rest) =>
            (.array items, rest)
      | '\x7b' :: rest =>
          if limit = 0 then none
          else match skipBlanks rest with
            | '\x7d' :: rest => some (.table [], rest)
            | rest => do
                let (pairs, rest) ← readPairs (readValue limit) (rest.length + 1) rest
                let table ← inlineTable pairs
                return (table, rest)
      | _ => readScalar text

/-- A line of a document that says something. -/
inductive Line where
  | pair (path : List Text) (value : Value)
  | table (path : List Text)
  | tables (path : List Text)
  deriving Repr

/-- The text after the end of a line: blanks, possibly a comment, and a line break unless the
document ends. -/
def endLine (text : Text) : Option Text :=
  let rest := match skipBlanks text with
    | '#' :: comment => comment.dropWhile isPlain
    | rest => rest
  if rest.isEmpty then some [] else newline? rest

def readHeader (closing : Text) : Reader (List Text) := fun text => do
  let (path, rest) ← readKey (depthLimit - 1) text
  guard (closing.isPrefixOf rest)
  return (path, rest.drop closing.length)

/-- A line that says something, up to its end. -/
def readLine : Reader Line
  | '[' :: '[' :: rest =>
      (readHeader [']', ']'] rest).map fun (path, rest) => (.tables path, rest)
  | '[' :: rest => (readHeader [']'] rest).map fun (path, rest) => (.table path, rest)
  | text =>
      (readPairWith (readValue depthLimit) text).map fun ((path, value), rest) =>
        (.pair path value, rest)

def readDocument : (limit : Nat) → Text → Option (List Line)
  | 0, _ => none
  | limit + 1, text =>
      match skipBlanks text with
      | [] => some []
      | '#' :: rest => do
          let rest ← endLine ('#' :: rest)
          readDocument limit rest
      | '\r' :: rest => do
          let rest ← newline? ('\r' :: rest)
          readDocument limit rest
      | '\n' :: rest => readDocument limit rest
      | text => do
          let (line, rest) ← readLine text
          let rest ← endLine rest
          (readDocument limit rest).map (line :: ·)

/-- The table of a document while its lines are taken in, and the path of the last header. -/
structure DocumentState where
  root : Table := ⟨.declared, []⟩
  header : List Text := []

def DocumentState.add (state : DocumentState) : Line → Option DocumentState
  | .pair path value => do
      let root ← state.root.update .implied (Table.insert path value) state.header
      return { state with root }
  | .table path => do
      let root ← state.root.declare path
      return ⟨root, path⟩
  | .tables path => do
      let root ← state.root.append path
      return ⟨root, path⟩

/-- The entries of a document. A byte order mark at its start is left out. -/
def parse? (text : Text) : Option (List (Text × Value)) := do
  let text := match text with
    | '\uFEFF' :: rest => rest
    | _ => text
  let lines ← readDocument (text.length + 1) text
  let state ← lines.foldlM DocumentState.add {}
  return entryValues state.root.entries

end JavaRecords.Toml
