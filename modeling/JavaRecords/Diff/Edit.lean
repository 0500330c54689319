import JavaRecords.Text.Basic

set_option autoImplicit false

namespace JavaRecords.Diff

/-- Cuts a text after every line terminator: a line feed, a carriage return, or both together. The
terminators stay with their lines, and a last line may have none. -/
def lines : Text → List Text
  | [] => []
  | '\r' :: '\n' :: rest => ['\r', '\n'] :: lines rest
  | c :: rest =>
      if c = '\n' || c = '\r' then [c] :: lines rest
      else match lines rest with
        | [] => [[c]]
        | line :: more => (c :: line) :: more

inductive EditKind where
  | equal
  | delete
  | insert
  deriving DecidableEq, Repr

/-- A run of `len` lines that stay, go or come. `old` and `new` are where it starts on the two
sides: an edit that takes no lines of a side still has a place there. -/
structure Edit where
  kind : EditKind
  old : Nat
  new : Nat
  len : Nat
  deriving DecidableEq, Repr

namespace Edit

/-- The number of lines taken from the old side. -/
def oldLen (edit : Edit) : Nat := if edit.kind = .insert then 0 else edit.len

/-- The number of lines taken from the new side. -/
def newLen (edit : Edit) : Nat := if edit.kind = .delete then 0 else edit.len

def oldStop (edit : Edit) : Nat := edit.old + edit.oldLen

def newStop (edit : Edit) : Nat := edit.new + edit.newLen

def shiftRight (edit : Edit) (count : Nat) : Edit :=
  { edit with old := edit.old + count, new := edit.new + count }

def shiftLeft (edit : Edit) (count : Nat) : Edit :=
  { edit with old := edit.old - count, new := edit.new - count }

/-- The edit with more lines at its end. -/
def grow (edit : Edit) (count : Nat) : Edit := { edit with len := edit.len + count }

/-- The edit with fewer lines at its end. -/
def shrink (edit : Edit) (count : Nat) : Edit := { edit with len := edit.len - count }

end Edit

/-- The two lists of lines that are compared. -/
structure Sides where
  old : Array Text
  new : Array Text

namespace Sides

def same (sides : Sides) (old new : Nat) : Bool :=
  match sides.old[old]?, sides.new[new]? with
  | some left, some right => left == right
  | _, _ => false

/-- How many lines, at most `limit`, are equal from two places on. -/
def commonPrefix (sides : Sides) (old new : Nat) : (limit : Nat) → Nat
  | 0 => 0
  | limit + 1 =>
      if sides.same old new then commonPrefix sides (old + 1) (new + 1) limit + 1 else 0

/-- How many lines, at most `limit`, are equal back from two places. -/
def commonSuffix (sides : Sides) (oldStop newStop : Nat) : (limit : Nat) → Nat
  | 0 => 0
  | limit + 1 =>
      if oldStop > 0 && newStop > 0 && sides.same (oldStop - 1) (newStop - 1) then
        commonSuffix sides (oldStop - 1) (newStop - 1) limit + 1
      else 0

end Sides

end JavaRecords.Diff
