import JavaRecords.Diff.Compact
import JavaRecords.Diff.Snake

set_option autoImplicit false

namespace JavaRecords.Diff

/-- A run of equal lines, or of lines that are replaced. -/
structure Change where
  isEqual : Bool
  old : Nat
  oldLen : Nat
  new : Nat
  newLen : Nat
  deriving DecidableEq, Repr

namespace Change

def oldStop (change : Change) : Nat := change.old + change.oldLen

def newStop (change : Change) : Nat := change.new + change.newLen

end Change

/-- Neighbouring edits that are taken as one change: equal lines, or deletions and insertions. -/
structure Pending where
  equal : Option Edit := none
  deletion : Option Edit := none
  insertion : Option Edit := none

namespace Pending

/-- The change that the edits make up. -/
def change? (pending : Pending) : Option Change :=
  match pending.equal, pending.deletion, pending.insertion with
  | some edit, _, _ => some ⟨true, edit.old, edit.len, edit.new, edit.len⟩
  | none, some deletion, some insertion =>
      some ⟨false, deletion.old, deletion.len, insertion.new, insertion.len⟩
  | none, some deletion, none => some ⟨false, deletion.old, deletion.len, deletion.new, 0⟩
  | none, none, some insertion => some ⟨false, insertion.old, 0, insertion.new, insertion.len⟩
  | none, none, none => none

def joined (before : Option Edit) (edit : Edit) : Option Edit :=
  match before with
  | some first => some (first.grow edit.len)
  | none => some edit

end Pending

/-- Joins neighbouring equal edits, and neighbouring deletions and insertions. -/
def changesFrom (pending : Pending) : List Edit → List Change
  | [] => pending.change?.toList
  | edit :: rest =>
      match edit.kind with
      | .equal =>
          if pending.deletion.isSome || pending.insertion.isSome then
            pending.change?.toList ++ changesFrom { equal := some edit } rest
          else changesFrom { equal := Pending.joined pending.equal edit } rest
      | .delete =>
          let flushed := if pending.equal.isSome then pending.change?.toList else []
          flushed ++ changesFrom
            { deletion := Pending.joined pending.deletion edit, insertion := pending.insertion }
            rest
      | .insert =>
          let flushed := if pending.equal.isSome then pending.change?.toList else []
          flushed ++ changesFrom
            { deletion := pending.deletion, insertion := Pending.joined pending.insertion edit }
            rest

def Sides.changes (sides : Sides) : List Change := changesFrom {} (compact sides sides.edits)

/-- The last `count` lines of equal lines. -/
def Change.keepLast (change : Change) (count : Nat) : Change :=
  let skip := change.oldLen - count
  { change with
    old := change.old + skip
    new := change.new + skip
    oldLen := change.oldLen - skip
    newLen := change.newLen - skip }

/-- The first `count` lines of equal lines. -/
def Change.keepFirst (change : Change) (count : Nat) : Change :=
  { change with oldLen := min change.oldLen count, newLen := min change.newLen count }

/-- Leaves `context` equal lines before the first change and after the last. -/
def trimContext (context : Nat) (changes : List Change) : List Change :=
  let trimFirst : List Change → List Change
    | [] => []
    | change :: rest => if change.isEqual then change.keepLast context :: rest else change :: rest
  let trimLast (changes : List Change) : List Change :=
    match changes.reverse with
    | [] => []
    | change :: rest =>
        (if change.isEqual then change.keepFirst context :: rest else change :: rest).reverse
  trimLast (trimFirst changes)

/-- Cuts changes into hunks, in the middle of equal lines with more than twice `context` lines.
`hunk` are the changes of the hunk so far. A last hunk without a change is left out. -/
def hunksFrom (context : Nat) (hunk : List Change) : List Change → List (List Change)
  | [] =>
      match hunk with
      | [] => []
      | [change] => if change.isEqual then [] else [hunk]
      | _ => [hunk]
  | change :: rest =>
      if change.isEqual && change.oldLen > 2 * context then
        (hunk ++ [change.keepFirst context]) :: hunksFrom context [change.keepLast context] rest
      else hunksFrom context (hunk ++ [change]) rest

def hunks (context : Nat) (changes : List Change) : List (List Change) :=
  hunksFrom context [] (trimContext context changes)

/-- A range of lines in the header of a hunk. -/
def rangeText (start stop : Nat) : Text :=
  let len := stop - start
  let text :=
    if len = 1 then toString (start + 1)
    else if len = 0 then s!"{start},0"
    else s!"{start + 1},{len}"
  text.toList

/-- A line of a hunk, with a note if it has no terminator. -/
def lineText (mark : Char) (line : Text) : Text :=
  let ended := line.getLast? == some '\n' || line.getLast? == some '\r'
  mark :: line ++ if ended then [] else "\n\\ No newline at end of file\n".toList

def linesAt (lines : Array Text) (start count : Nat) : List Text :=
  (List.range count).filterMap fun index => lines[start + index]?

/-- The lines of a change: those that stay, or those that go and those that come. -/
def changeText (sides : Sides) (change : Change) : Text :=
  if change.isEqual then
    (linesAt sides.old change.old change.oldLen).flatMap (lineText ' ')
  else
    (linesAt sides.old change.old change.oldLen).flatMap (lineText '-')
      ++ (linesAt sides.new change.new change.newLen).flatMap (lineText '+')

/-- A hunk with its header. A hunk without lines has no text. -/
def hunkText (sides : Sides) (hunk : List Change) : Text :=
  match hunk, hunk.getLast? with
  | first :: _, some last =>
      let body := hunk.flatMap (changeText sides)
      if body.isEmpty then []
      else "@@ -".toList ++ rangeText first.old last.oldStop ++ " +".toList
        ++ rangeText first.new last.newStop ++ " @@\n".toList ++ body
  | _, _ => []

/-- The unified diff of two texts, with `context` equal lines around each change. The diff of equal
texts is empty. -/
def unified (path old new : Text) (context : Nat) : Text :=
  if old = new then []
  else
    let sides : Sides := ⟨(lines old).toArray, (lines new).toArray⟩
    match hunks context sides.changes with
    | [] => []
    | hunks =>
        "--- a/".toList ++ path ++ "\n+++ b/".toList ++ path ++ ['\n']
          ++ hunks.flatMap (hunkText sides)

end JavaRecords.Diff
