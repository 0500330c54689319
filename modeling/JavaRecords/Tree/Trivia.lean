import JavaRecords.Span
import JavaRecords.Text.Basic

set_option autoImplicit false

namespace JavaRecords

/-- A declaration of a tree: its place among the tree's nodes. -/
abbrev NodeId := Nat

inductive CommentKind where
  | line
  | block
  | doc
  deriving DecidableEq, Repr

/-- A comment of a source: its text and where it stands. -/
structure Comment where
  kind : CommentKind
  text : Text
  span : Span
  deriving DecidableEq, Repr

/-- The comments of one declaration: those before it, those after it on its last line, and those
inside its body after the last member. -/
structure Trivia where
  leading : List Comment := []
  trailing : List Comment := []
  dangling : List Comment := []
  deriving DecidableEq, Repr, Inhabited

namespace Trivia

def isEmpty (trivia : Trivia) : Bool :=
  trivia.leading.isEmpty && trivia.trailing.isEmpty && trivia.dangling.isEmpty

def comments (trivia : Trivia) : List Comment :=
  trivia.leading ++ trivia.trailing ++ trivia.dangling

end Trivia

/-- The comments of the declarations of a tree, by ascending id. No entry is without comments, so
tables that bind the same comments are equal. -/
structure TriviaTable where
  entries : List (NodeId × Trivia) := []
  deriving DecidableEq, Repr, Inhabited

namespace TriviaTable

def get? (table : TriviaTable) (id : NodeId) : Option Trivia := table.entries.lookup id

def leading (table : TriviaTable) (id : NodeId) : List Comment :=
  ((table.get? id).map Trivia.leading).getD []

def trailing (table : TriviaTable) (id : NodeId) : List Comment :=
  ((table.get? id).map Trivia.trailing).getD []

def dangling (table : TriviaTable) (id : NodeId) : List Comment :=
  ((table.get? id).map Trivia.dangling).getD []

def size (table : TriviaTable) : Nat := table.entries.length

def isEmpty (table : TriviaTable) : Bool := table.entries.isEmpty

/-- Removes the comments of a declaration. -/
def erase (table : TriviaTable) (id : NodeId) : TriviaTable :=
  ⟨table.entries.filter fun entry => entry.1 != id⟩

/-- Puts an entry into a list that ascends by id, in place of an entry with the same id. -/
def put (id : NodeId) (trivia : Trivia) : List (NodeId × Trivia) → List (NodeId × Trivia)
  | [] => [(id, trivia)]
  | entry :: rest =>
      if entry.1 < id then entry :: put id trivia rest
      else if entry.1 = id then (id, trivia) :: rest
      else (id, trivia) :: entry :: rest

/-- Replaces the comments of a declaration. A declaration without comments has no entry. -/
def insert (table : TriviaTable) (id : NodeId) (trivia : Trivia) : TriviaTable :=
  if trivia.isEmpty then table.erase id else ⟨put id trivia table.entries⟩

end TriviaTable

end JavaRecords
