import JavaRecords.Tree.Basic

set_option autoImplicit false

namespace JavaRecords

namespace SyntaxTree

/-- The indentation of one level. -/
def memberIndent : Text := [' ', ' ', ' ', ' ']

def commentLines (indent newline : Text) (comments : List Comment) : Text :=
  comments.flatMap fun comment => indent ++ comment.text ++ newline

/-- Comments after something on its line. -/
def commentTail (comments : List Comment) : Text :=
  comments.flatMap fun comment => ' ' :: comment.text

/-- The first line of a record, up to and with its opening brace. -/
def recordHeader (record : RecordDecl) : Text :=
  let interfaces := match record.interfaces with
    | none => []
    | some interfaces => " implements ".toList ++ interfaces
  record.indent ++ record.headerPrefix ++ "record ".toList ++ record.name
    ++ record.typeParams.getD [] ++ ['(']
    ++ Text.join [',', ' '] (record.components.map RecordComponent.render) ++ [')']
    ++ interfaces ++ [' ', '{']

/-- The members of a record, each on a line of its own and with an empty line between two. -/
def memberLines (newline : Text) (member : NodeId → Option Text) : List NodeId → Option Text
  | [] => some []
  | [id] => do
      let text ← member id
      some (newline ++ text)
  | id :: rest => do
      let text ← member id
      let lines ← memberLines newline member rest
      some (newline ++ text ++ newline ++ lines)

/-- Puts declarations one after the other. `one` gives the text up to the end of a declaration from
a byte offset on, and the offset where the source goes on. -/
def spliceList (one : NodeId → Nat → Option (Text × Nat)) :
    List NodeId → Nat → Option (Text × Nat)
  | [], cursor => some ([], cursor)
  | id :: rest, cursor => do
      let (text, cursor) ← one id cursor
      let (texts, cursor) ← spliceList one rest cursor
      some (text ++ texts, cursor)

mutual

/-- The source from `cursor` to the end of the records in the declaration `id`, with the records
written in place, and the byte offset after the last of them. A record that starts before `cursor`
or ends after the source is left out. `fuel` bounds the nesting. -/
def spliceNode (tree : SyntaxTree) (newline : Text) :
    (fuel : Nat) → NodeId → (cursor : Nat) → Option (Text × Nat)
  | 0, _, _ => none
  | fuel + 1, id, cursor =>
      match tree.node? id with
      | some (.record record) =>
          if record.extent.start < cursor || Text.byteSize tree.source < record.extent.stop then
            some ([], cursor)
          else do
            let gap ← Text.slice? tree.source cursor record.extent.start
            let text ← recordText tree newline fuel id record
            let separator := if record.extent.start > 0 then newline else []
            some (gap ++ separator ++ text, record.extent.stop)
      | some (.classDecl decl) => spliceList (spliceNode tree newline fuel) decl.members cursor
      | _ => some ([], cursor)

def recordText (tree : SyntaxTree) (newline : Text) :
    (fuel : Nat) → NodeId → RecordDecl → Option Text
  | 0, _, _ => none
  | fuel + 1, id, record => do
      let indent := record.indent ++ memberIndent
      let members ← memberLines newline (memberText tree newline fuel indent) record.members
      let dangling := (tree.trivia.dangling id).flatMap fun comment =>
        newline ++ indent ++ comment.text
      some (commentLines record.indent newline (tree.trivia.leading id) ++ recordHeader record
        ++ members ++ dangling ++ newline ++ record.indent ++ ['}']
        ++ commentTail (tree.trivia.trailing id))

/-- A member of a record with its comments. `indent` is the indentation of a member that has none.
-/
def memberText (tree : SyntaxTree) (newline : Text) :
    (fuel : Nat) → (indent : Text) → NodeId → Option Text
  | 0, _, _ => none
  | fuel + 1, indent, id =>
      match tree.node? id with
      | none => some []
      | some (.record record) => recordText tree newline fuel id record
      | some node =>
          match node.source? with
          | none => some []
          | some source => do
              let indent := if source.indent.isEmpty then indent else source.indent
              let leading := (tree.trivia.leading id).filter fun comment =>
                comment.span.stop ≤ source.range.start
              let text ← match node with
                | .classDecl decl => verbatimText tree newline fuel source decl.members
                | _ => some source.text
              some (commentLines indent newline leading ++ indent ++ text
                ++ commentTail (tree.trivia.trailing id))

/-- The source of a class that stays, with the records among its members written in place. A class
whose text is not what its source has in its range is written as its text. -/
def verbatimText (tree : SyntaxTree) (newline : Text) :
    (fuel : Nat) → Excerpt → List NodeId → Option Text
  | 0, _, _ => none
  | fuel + 1, source, members =>
      let range := source.range
      if Text.slice? tree.source range.start range.stop = some source.text then do
        let (text, cursor) ← spliceList (spliceNode tree newline fuel) members range.start
        let rest ← Text.slice? tree.source (min cursor range.stop) range.stop
        some (text ++ rest)
      else some source.text

end

/-- A bound on the nesting of the declarations of a tree that do not hold themselves: each of its
nodes is met once on the way down, in at most three calls. -/
def printFuel (tree : SyntaxTree) : Nat := 3 * tree.nodes.size + 3

/-- The source that a tree stands for: its source with each record written over the extent of the
declaration it takes the place of. There is none if a record starts or ends inside a character, or
if a declaration holds itself. -/
def print? (tree : SyntaxTree) : Option Text := do
  let newline := Text.lineEnding tree.source
  let (text, cursor) ← spliceList (spliceNode tree newline tree.printFuel) tree.unit.types 0
  let rest ← Text.slice? tree.source cursor (Text.byteSize tree.source)
  some (text ++ rest)

/-- The source that a tree stands for; empty if it has none. -/
def print (tree : SyntaxTree) : Text := tree.print?.getD []

/-- A record of a tree, with its comments and members and without the line break before it. -/
def renderRecord? (tree : SyntaxTree) (id : NodeId) (record : RecordDecl) : Option Text :=
  recordText tree (Text.lineEnding tree.source) tree.printFuel id record

end SyntaxTree

end JavaRecords
