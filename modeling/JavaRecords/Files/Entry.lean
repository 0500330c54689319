import JavaRecords.Files.Path
import JavaRecords.Text.Listing

set_option autoImplicit false

namespace JavaRecords

/-- Why a path cannot be read. -/
inductive ReadError where
  | notFound
  | notADirectory
  | isADirectory
  | notText
  deriving DecidableEq, Repr

def ReadError.message : ReadError → String
  | .notFound => "No such file or directory (os error 2)"
  | .notADirectory => "Not a directory (os error 20)"
  | .isADirectory => "Is a directory (os error 21)"
  | .notText => "stream did not contain valid UTF-8"

/-- A file or a directory. A file has no text if its bytes are not UTF-8. -/
inductive Entry where
  | file (text : Option Text)
  | directory (entries : List (Text × Entry))
  deriving Repr

namespace Entry

def isDirectory : Entry → Bool
  | file _ => false
  | directory _ => true

def read : Entry → Except ReadError Text
  | file (some text) => .ok text
  | file none => .error .notText
  | directory _ => .error .isADirectory

/-- Goes along the parts of a path. `above` holds the directories around the entry, innermost first.
Nothing is known of what lies above the outermost one. -/
def follow (above : List Entry) (entry : Entry) : List Text → Except ReadError Entry
  | [] => .ok entry
  | part :: parts =>
      match entry with
      | file _ => .error .notADirectory
      | directory entries =>
          if Path.isBlank part then follow above entry parts
          else if part == ['.', '.'] then
            match above with
            | [] => .error .notFound
            | outer :: above => follow above outer parts
          else
            match lookupNamed part entries with
            | none => .error .notFound
            | some inner => follow (entry :: above) inner parts

def find (directory : Entry) (path : Text) : Except ReadError Entry :=
  match path with
  | [] | '/' :: _ => .error .notFound
  | _ => follow [] directory (Text.splitOn '/' path)

/-- Puts an entry at the end of a list of names, and makes the directories that are missing. -/
def insert (added : Entry) : List Text → Entry → Entry
  | [], _ => added
  | name :: names, entry =>
      let entries := match entry with
        | file _ => []
        | directory entries => entries
      let inner := (lookupNamed name entries).getD (directory [])
      directory (insertNamed name (insert added names inner) entries)

def write (directory : Entry) (path text : Text) : Entry :=
  match Path.names? path with
  | none => directory
  | some names => insert (file (some text)) names directory

mutual

/-- The files below an entry with their paths, which start with `here`, except those in directories
to be skipped. -/
def filesBelow (skip : Text → Bool) (here : Text) : Entry → List (Text × Option Text)
  | file text => [(here, text)]
  | directory entries => filesOf skip here entries

def filesOf (skip : Text → Bool) (here : Text) : List (Text × Entry) → List (Text × Option Text)
  | [] => []
  | (name, entry) :: rest =>
      let path := Path.join here name
      (if entry.isDirectory && skip path then [] else filesBelow skip path entry)
        ++ filesOf skip here rest

end

end Entry

/-- What stands at each path. -/
abbrev FileSystem := Text → Except ReadError Entry

namespace FileSystem

def isFile (files : FileSystem) (path : Text) : Bool :=
  match files path with
  | .ok (.file _) => true
  | _ => false

def isDirectory (files : FileSystem) (path : Text) : Bool :=
  match files path with
  | .ok (.directory _) => true
  | _ => false

def read (files : FileSystem) (path : Text) : Except ReadError Text := do
  let entry ← files path
  entry.read

end FileSystem

end JavaRecords
