import JavaRecords.Conversion.Record

set_option autoImplicit false

namespace JavaRecords

/-- How many of the first `size` ids are not in a list. -/
def unvisited (size : Nat) (visited : List NodeId) : Nat :=
  (List.range size).countP fun id => !visited.contains id

theorem countP_lt_of_imp {α : Type} (small large : α → Bool) (items : List α) (item : α)
    (imp : ∀ other, small other = true → large other = true) (member : item ∈ items)
    (outside : small item = false) (inside : large item = true) :
    items.countP small < items.countP large := by
  induction items with
  | nil => cases member
  | cons first rest ih =>
      have le : rest.countP small ≤ rest.countP large :=
        List.countP_mono_left fun other _ => imp other
      rcases List.mem_cons.mp member with rfl | later
      · simp only [List.countP_cons, outside, inside]
        simp
        omega
      · have lt := ih later
        rw [List.countP_cons, List.countP_cons]
        by_cases counted : small first = true
        · rw [if_pos counted, if_pos (imp first counted)]
          omega
        · rw [if_neg counted]
          omega

theorem unvisited_cons_lt (size : Nat) (visited : List NodeId) (id : NodeId) (known : id < size)
    (fresh : ¬ visited.contains id = true) :
    unvisited size (id :: visited) < unvisited size visited := by
  apply countP_lt_of_imp _ _ _ id
  · intro other
    simp
  · exact List.mem_range.mpr known
  · simp
  · simpa using fresh

theorem unvisited_cons_le (size : Nat) (visited : List NodeId) (id : NodeId) :
    unvisited size (id :: visited) ≤ unvisited size visited := by
  apply List.countP_mono_left
  intro other _
  simp

theorem SyntaxTree.lt_of_class? {tree : SyntaxTree} {id : NodeId} {decl : ClassDecl}
    (found : tree.class? id = some decl) : id < tree.nodes.size := by
  unfold SyntaxTree.class? SyntaxTree.node? at found
  by_cases known : id < tree.nodes.size
  · exact known
  · have absent : tree.nodes[id]? = none := Array.getElem?_eq_none (Nat.le_of_not_lt known)
    simp [absent] at found

/-- A class that becomes a record. -/
structure Replacement where
  record : RecordDecl
  partition : Partition
  deriving DecidableEq, Repr

/-- A conversion under way: the tree so far, and the ids that take the place of classes. Nodes of
the input keep their ids, and new nodes are added after them. -/
structure Rebuild where
  tree : SyntaxTree
  replaced : List (NodeId × NodeId)

namespace Rebuild

def image (state : Rebuild) (id : NodeId) : NodeId := (state.replaced.lookup id).getD id

def addRecord (state : Rebuild) (input : SyntaxTree) (id : NodeId) (replacement : Replacement) :
    SyntaxTree :=
  let record := { replacement.record with members := replacement.record.members.map state.image }
  { state.tree with
    nodes := state.tree.nodes.push (.record record)
    trivia :=
      state.tree.trivia.moveToRecord input.trivia id replacement.partition state.tree.nextId }

def addCopy (state : Rebuild) (id : NodeId) (decl : ClassDecl) (members : List NodeId) :
    SyntaxTree :=
  { state.tree with
    nodes := state.tree.nodes.push (.classDecl { decl with members })
    trivia := state.tree.trivia.move id state.tree.nextId }

/-- Settles a class whose members are settled as `members`. -/
def settle (input : SyntaxTree) (replacements : List (NodeId × Replacement)) (state : Rebuild)
    (id : NodeId) (decl : ClassDecl) (members : List NodeId) : Rebuild × NodeId :=
  let (tree, output) := match replacements.lookup id with
    | some replacement => (state.addRecord input id replacement, state.tree.nextId)
    | none =>
        if members = decl.members then (state.tree, id)
        else (state.addCopy id decl members, state.tree.nextId)
  (⟨tree, (id, output) :: state.replaced⟩, output)

mutual

/-- Settles a node and gives the id that takes its place. Member classes are settled before the
class that holds them. `visiting` are the classes on the way to the node: one that is met again
stays as it is there. -/
def node (input : SyntaxTree) (replacements : List (NodeId × Replacement)) (visiting : List NodeId)
    (state : Rebuild) (id : NodeId) : Rebuild × NodeId :=
  match state.replaced.lookup id with
  | some done => (state, done)
  | none =>
      match _found : input.class? id with
      | none => (state, id)
      | some decl =>
          if _met : visiting.contains id then (state, id)
          else
            let (state, members) := nodes input replacements (id :: visiting) state decl.members
            settle input replacements state id decl members
termination_by (unvisited input.nodes.size visiting, 0)
decreasing_by
  exact Prod.Lex.left _ _ (unvisited_cons_lt _ _ _ (SyntaxTree.lt_of_class? _found) _met)

/-- Settles nodes in order and gives the ids that take their places. -/
def nodes (input : SyntaxTree) (replacements : List (NodeId × Replacement)) (visiting : List NodeId)
    (state : Rebuild) (ids : List NodeId) : Rebuild × List NodeId :=
  match ids with
  | [] => (state, [])
  | id :: rest =>
      let (state, first) := node input replacements visiting state id
      let (state, others) := nodes input replacements visiting state rest
      (state, first :: others)
termination_by (unvisited input.nodes.size visiting, ids.length + 1)
decreasing_by
  · exact Prod.Lex.right _ (by omega)
  · exact Prod.Lex.right _ (by simp)

end

/-- The conversion of a tree in which the classes of `replacements` become records: first the types
of the unit, then, by ascending id, the classes that the unit does not lead to. -/
def run (input : SyntaxTree) (replacements : List (NodeId × Replacement)) : Rebuild :=
  let (state, types) := nodes input replacements [] ⟨input, []⟩ input.unit.types
  let ids := (replacements.map Prod.fst).mergeSort (· ≤ ·)
  let (state, _) := nodes input replacements [] state ids
  { state with tree := { state.tree with unit := { input.unit with types } } }

end Rebuild

end JavaRecords
