import JavaRecords.Text.Basic

set_option autoImplicit false

namespace JavaRecords.Path

inductive Component where
  | root
  | here
  | name (text : Text)
  deriving DecidableEq, Repr

/-- Whether a part between slashes means nothing: it is empty or a dot. -/
def isBlank (part : Text) : Bool := part.isEmpty || part == ['.']

def names (parts : List Text) : List Component :=
  (parts.filter fun part => !isBlank part).map .name

def components (path : Text) : List Component :=
  match path with
  | [] => []
  | '/' :: _ => .root :: names (Text.splitOn '/' path)
  | _ =>
      let parts := Text.splitOn '/' path
      if parts.head? == some ['.'] then .here :: names parts else names parts

def trimParts (parts : List Text) : List Text := (parts.reverse.dropWhile isBlank).reverse

/-- The parts after the first `count` names. -/
def dropNames : (count : Nat) → List Text → List Text
  | 0, parts => parts
  | _ + 1, [] => []
  | count + 1, part :: rest =>
      if isBlank part then dropNames (count + 1) rest else dropNames count rest

/-- A path without the slashes and dots at its end. A leading slash or dot stays. -/
def trimmed (path : Text) : Text :=
  match path with
  | [] => []
  | '/' :: _ => '/' :: Text.join ['/'] (trimParts (Text.splitOn '/' path).tail)
  | _ =>
      match Text.splitOn '/' path with
      | ['.'] :: rest => Text.join ['/'] (['.'] :: trimParts rest)
      | parts => Text.join ['/'] (trimParts parts)

/-- The text of a path after the components of `root`, if it starts with them. -/
def strip? (root path : Text) : Option Text :=
  match components root with
  | [] => some (trimmed path)
  | first :: rest =>
      if (first :: rest).isPrefixOf (components path) then
        let count := ((first :: rest).filter fun part => part != .root && part != .here).length
        let parts := (dropNames count (Text.splitOn '/' path)).dropWhile isBlank
        some (Text.join ['/'] (trimParts parts))
      else none

def withSlashes (path : Text) : Text := path.map fun c => if c = '\\' then '/' else c

/-- A path relative to a root, or the path itself if it does not lie under the root, with slashes
for backslashes. -/
def relative (root path : Text) : Text := withSlashes ((strip? root path).getD path)

/-- A path inside a directory. An absolute path stays as it is. -/
def join (directory path : Text) : Text :=
  match path with
  | '/' :: _ => path
  | _ =>
      if directory.isEmpty || directory.getLast? == some '/' then directory ++ path
      else directory ++ ['/'] ++ path

/-- The directory that a path lies in: what stands before its last name. -/
def parent (path : Text) : Text :=
  trimmed ((trimmed path).reverse.dropWhile (· ≠ '/')).reverse

def fileName (path : Text) : Text := ((trimmed path).reverse.takeWhile (· ≠ '/')).reverse

/-- The names on the way to a path from the working directory. Two dots lead back to the directory
above. -/
def names? (path : Text) : Option (List Text) :=
  (Text.splitOn '/' path).foldlM (fun above part =>
    if isBlank part then some above
    else if part == ['.', '.'] then if above.isEmpty then none else some above.dropLast
    else some (above ++ [part])) []

end JavaRecords.Path
