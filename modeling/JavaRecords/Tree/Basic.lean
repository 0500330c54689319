import JavaRecords.Tree.Node

set_option autoImplicit false

namespace JavaRecords

/-- The package declaration, the imports and the types of a source. -/
structure CompilationUnit where
  package : Option NodeId := none
  imports : List NodeId := []
  types : List NodeId := []
  deriving DecidableEq, Repr, Inhabited

/-- A syntax tree over its source text. Nodes are only added at the end, so an id stays valid in
every later tree. -/
structure SyntaxTree where
  source : Text
  nodes : Array Node := #[]
  trivia : TriviaTable := {}
  unit : CompilationUnit := {}
  deriving DecidableEq, Repr, Inhabited

namespace SyntaxTree

def node? (tree : SyntaxTree) (id : NodeId) : Option Node := tree.nodes[id]?

def class? (tree : SyntaxTree) (id : NodeId) : Option ClassDecl :=
  match tree.node? id with
  | some (.classDecl decl) => some decl
  | _ => none

def record? (tree : SyntaxTree) (id : NodeId) : Option RecordDecl :=
  match tree.node? id with
  | some (.record decl) => some decl
  | _ => none

def nextId (tree : SyntaxTree) : NodeId := tree.nodes.size

def add (tree : SyntaxTree) (node : Node) (trivia : Trivia) : SyntaxTree :=
  { tree with
    nodes := tree.nodes.push node
    trivia := tree.trivia.insert tree.nextId trivia }

/-- The top-level classes in declaration order. -/
def classes (tree : SyntaxTree) : List (NodeId × ClassDecl) :=
  tree.unit.types.filterMap fun id => (tree.class? id).map (id, ·)

/-- The top-level records in declaration order. -/
def records (tree : SyntaxTree) : List (NodeId × RecordDecl) :=
  tree.unit.types.filterMap fun id => (tree.record? id).map (id, ·)

def findType? (tree : SyntaxTree) (name : Text) : Option NodeId :=
  tree.unit.types.find? fun id => (tree.node? id).bind Node.name? == some name

/-- A node that was there before an addition is still there after it. -/
theorem node?_add_of_lt (tree : SyntaxTree) (node : Node) (trivia : Trivia) (id : NodeId)
    (known : id < tree.nextId) : (tree.add node trivia).node? id = tree.node? id := by
  have earlier : id ≠ tree.nodes.size := Nat.ne_of_lt known
  simp [node?, add, Array.getElem?_push, earlier]

theorem node?_add_nextId (tree : SyntaxTree) (node : Node) (trivia : Trivia) :
    (tree.add node trivia).node? tree.nextId = some node := by
  simp [node?, add, nextId]

end SyntaxTree

end JavaRecords
