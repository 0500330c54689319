import JavaRecords.Proofs.Conversion.Settled

set_option autoImplicit false

namespace JavaRecords

namespace Rebuild

variable {input : SyntaxTree} {replacements : List (NodeId × Replacement)}

/-- A property of states that settling a class keeps. -/
def Kept (input : SyntaxTree) (replacements : List (NodeId × Replacement))
    (property : Rebuild → Prop) : Prop :=
  ∀ state id decl members, input.class? id = some decl → state.replaced.lookup id = none →
    property state → property (settle input replacements state id decl members).1

/-- What settling a class keeps, settling a node and settling a list of nodes keep. The classes on
the way to a node are not settled with it. -/
theorem node_nodes_kept {property : Rebuild → Prop}
    (step : Kept input replacements property) :
    (∀ visiting state id, property state →
      let result := node input replacements visiting state id
      property result.1 ∧ ∀ other ∈ visiting, state.replaced.lookup other = none →
        result.1.replaced.lookup other = none) ∧
    (∀ visiting state ids, property state →
      let result := nodes input replacements visiting state ids
      property result.1 ∧ ∀ other ∈ visiting, state.replaced.lookup other = none →
        result.1.replaced.lookup other = none) := by
  apply node.mutual_induct
  · intro visiting state id done found holds
    have unfolded : node input replacements visiting state id = (state, done) := by
      rw [node, found]
    rw [unfolded]
    exact ⟨holds, fun _ _ waiting => waiting⟩
  · intro visiting state id fresh absent holds
    rw [node_of_not_class fresh absent]
    exact ⟨holds, fun _ _ waiting => waiting⟩
  · intro visiting state id fresh decl present met holds
    rw [node_of_visiting fresh met]
    exact ⟨holds, fun _ _ waiting => waiting⟩
  · intro visiting state id fresh decl present unmet middle members settled ih holds
    have inner := ih holds
    rw [settled] at inner
    obtain ⟨kept, waiting⟩ := inner
    rw [node_of_class fresh present unmet, settled]
    have unsettled := waiting id List.mem_cons_self fresh
    refine ⟨step middle id decl members present unsettled kept, ?_⟩
    intro other on absent
    have different : other ≠ id := by
      rintro rfl
      exact unmet (List.contains_iff_mem.mpr on)
    rw [(settle_pushes input replacements middle id decl members).replaced,
      lookup_cons_of_ne _ different]
    exact waiting other (List.mem_cons_of_mem _ on) absent
  · intro visiting state holds
    rw [nodes]
    exact ⟨holds, fun _ _ waiting => waiting⟩
  · intro visiting state id rest middle first settledFirst last others settledRest ihFirst ihRest
      holds
    have one := ihFirst holds
    rw [settledFirst] at one
    have more := ihRest one.1
    rw [settledRest] at more
    have unfolded : nodes input replacements visiting state (id :: rest) =
        (last, first :: others) := by
      rw [nodes]
      simp only [settledFirst, settledRest]
    rw [unfolded]
    exact ⟨more.1, fun other on absent => more.2 other on (one.2 other on absent)⟩

/-- Settling keeps the nodes and what was settled. -/
theorem kept_extends (state : Rebuild) : Kept input replacements (Extends state) := by
  intro middle id decl members _ fresh extended
  exact extended.trans ((settle_pushes input replacements middle id decl members).extends fresh)

theorem node_extends (visiting : List NodeId) (state : Rebuild) (id : NodeId) :
    Extends state (node input replacements visiting state id).1 :=
  ((node_nodes_kept (kept_extends state)).1 visiting state id (.refl state)).1

theorem nodes_extends (visiting : List NodeId) (state : Rebuild) (ids : List NodeId) :
    Extends state (nodes input replacements visiting state ids).1 :=
  ((node_nodes_kept (kept_extends state)).2 visiting state ids (.refl state)).1

theorem node_settles (state : Rebuild) {id : NodeId} (isClass : (input.class? id).isSome) :
    ((node input replacements [] state id).1.replaced.lookup id).isSome := by
  cases found : state.replaced.lookup id with
  | some done =>
      rw [(node_extends [] state id).replaced id done found]
      rfl
  | none =>
      obtain ⟨decl, present⟩ := Option.isSome_iff_exists.mp isClass
      rw [node_of_class found present (by simp), (settle_pushes _ _ _ _ _ _).replaced,
        List.lookup_cons_self]
      rfl

theorem nodes_settle (state : Rebuild) (ids : List NodeId) :
    AllSettled input (nodes input replacements [] state ids).1 ids := by
  induction ids generalizing state with
  | nil => exact fun _ listed => absurd listed List.not_mem_nil
  | cons id rest ih =>
      rw [nodes]
      intro member listed isClass
      rcases List.mem_cons.mp listed with rfl | later
      · have here : ((node input replacements [] state member).1.replaced.lookup member).isSome :=
          node_settles state isClass
        obtain ⟨output, found⟩ := Option.isSome_iff_exists.mp here
        exact Option.isSome_iff_exists.mpr
          ⟨output, (nodes_extends [] _ rest).replaced member output found⟩
      · exact ih _ member later isClass

theorem length_nodes (visiting : List NodeId) (state : Rebuild) (ids : List NodeId) :
    (nodes input replacements visiting state ids).2.length = ids.length := by
  induction ids generalizing state with
  | nil =>
      rw [nodes]
  | cons id rest ih =>
      rw [nodes]
      simp only [List.length_cons, ih]

def place (decl : ClassDecl) (replacement? : Option Replacement) (members : List NodeId) : Node :=
  match replacement? with
  | some replacement => .record { replacement.record with members }
  | none => .classDecl { decl with members }

/-- What takes the place of a class in a tree under way: the class itself, unless it is replaced, or
a new node that differs from it, or from its record, only in the members. -/
def Taken (input : SyntaxTree) (replacements : List (NodeId × Replacement)) (state : Rebuild)
    (id output : NodeId) : Prop :=
  ∃ decl, input.class? id = some decl ∧
    ((replacements.lookup id = none ∧ output = id) ∨
      (input.nodes.size ≤ output ∧ ∃ members,
        state.tree.node? output = some (place decl (replacements.lookup id) members)))

/-- A tree under way: the nodes of the input, and after them at most one node for each class. -/
structure Grown (input : SyntaxTree) (replacements : List (NodeId × Replacement))
    (state : Rebuild) : Prop where
  size : input.nodes.size ≤ state.tree.nodes.size
  nodes : ∀ id, id < input.nodes.size → state.tree.node? id = input.node? id
  taken : ∀ id output, state.replaced.lookup id = some output →
    Taken input replacements state id output
  bounded : ∀ id output, state.replaced.lookup id = some output →
    output < state.tree.nodes.size
  origin : ∀ output, input.nodes.size ≤ output → output < state.tree.nodes.size →
    ∃ id, state.replaced.lookup id = some output
  distinct : ∀ id other output, input.nodes.size ≤ output →
    state.replaced.lookup id = some output → state.replaced.lookup other = some output → id = other

theorem grown_start (input : SyntaxTree) (replacements : List (NodeId × Replacement)) :
    Grown input replacements ⟨input, []⟩ where
  size := Nat.le_refl _
  nodes _ _ := rfl
  taken _ _ found := by cases found
  bounded _ _ found := by cases found
  origin _ large known := absurd known (Nat.not_lt.mpr large)
  distinct _ _ _ _ found := by cases found

theorem Taken.mono {state later : Rebuild} (extended : Extends state later) {id output : NodeId}
    (known : output < state.tree.nodes.size) (taken : Taken input replacements state id output) :
    Taken input replacements later id output := by
  obtain ⟨decl, present, same | ⟨new, members, node⟩⟩ := taken
  · exact ⟨decl, present, Or.inl same⟩
  · exact ⟨decl, present, Or.inr ⟨new, members, (extended.nodes output known).trans node⟩⟩

theorem Grown.keep {state : Rebuild} {id : NodeId} {decl : ClassDecl}
    (grown : Grown input replacements state) (present : input.class? id = some decl)
    (fresh : state.replaced.lookup id = none) (chosen : replacements.lookup id = none) :
    Grown input replacements ⟨state.tree, (id, id) :: state.replaced⟩ := by
  have known := SyntaxTree.lt_of_class? present
  have pushed : Pushes state ⟨state.tree, (id, id) :: state.replaced⟩ id id :=
    ⟨rfl, Nat.le_refl _, fun _ _ => rfl, rfl⟩
  have extended := pushed.extends fresh
  refine ⟨grown.size, grown.nodes, ?_, ?_, ?_, ?_⟩
  · intro other output found
    rcases pushed.lookup_cases found with ⟨rfl, rfl⟩ | ⟨_, earlier⟩
    · exact ⟨decl, present, Or.inl ⟨chosen, rfl⟩⟩
    · exact (grown.taken other output earlier).mono extended (grown.bounded other output earlier)
  · intro other output found
    rcases pushed.lookup_cases found with ⟨rfl, rfl⟩ | ⟨_, earlier⟩
    · exact Nat.lt_of_lt_of_le known grown.size
    · exact grown.bounded other output earlier
  · intro output large inside
    obtain ⟨other, found⟩ := grown.origin output large inside
    exact ⟨other, extended.replaced other output found⟩
  · intro other another output large found foundOther
    rcases pushed.lookup_cases found with ⟨rfl, rfl⟩ | ⟨_, earlier⟩
    · exact absurd known (Nat.not_lt.mpr large)
    · rcases pushed.lookup_cases foundOther with ⟨rfl, rfl⟩ | ⟨_, earlierOther⟩
      · exact absurd known (Nat.not_lt.mpr large)
      · exact grown.distinct other another output large earlier earlierOther

/-- A class whose place a new node takes adds that node at the end. -/
theorem Grown.push {state later : Rebuild} {id : NodeId} {decl : ClassDecl} {members : List NodeId}
    {node : Node} {trivia : TriviaTable} (grown : Grown input replacements state)
    (present : input.class? id = some decl) (fresh : state.replaced.lookup id = none)
    (tree : later.tree = { state.tree with nodes := state.tree.nodes.push node, trivia })
    (replaced : later.replaced = (id, state.tree.nextId) :: state.replaced)
    (placed : node = place decl (replacements.lookup id) members) :
    Grown input replacements later := by
  have pushed := pushes_of_push tree replaced
  have extended := pushed.extends fresh
  have size : later.tree.nodes.size = state.tree.nodes.size + 1 := by simp [tree]
  have last : later.tree.node? state.tree.nodes.size =
      some (place decl (replacements.lookup id) members) := by
    rw [tree, ← placed]
    exact SyntaxTree.node?_push_size _ _ _
  refine ⟨Nat.le_trans grown.size extended.size, ?_, ?_, ?_, ?_, ?_⟩
  · intro other known
    rw [extended.nodes other (Nat.lt_of_lt_of_le known grown.size), grown.nodes other known]
  · intro other output found
    rcases pushed.lookup_cases found with ⟨rfl, rfl⟩ | ⟨_, earlier⟩
    · exact ⟨decl, present, Or.inr ⟨grown.size, members, last⟩⟩
    · exact (grown.taken other output earlier).mono extended (grown.bounded other output earlier)
  · intro other output found
    rcases pushed.lookup_cases found with ⟨rfl, rfl⟩ | ⟨_, earlier⟩
    · rw [size]
      exact Nat.lt_succ_self _
    · exact Nat.lt_of_lt_of_le (grown.bounded other output earlier) extended.size
  · intro output large inside
    rw [size] at inside
    rcases Nat.lt_succ_iff_lt_or_eq.mp inside with before | rfl
    · obtain ⟨other, found⟩ := grown.origin output large before
      exact ⟨other, extended.replaced other output found⟩
    · exact ⟨id, by rw [replaced, List.lookup_cons_self, SyntaxTree.nextId]⟩
  · intro other another output large found foundOther
    rcases pushed.lookup_cases found with ⟨rfl, rfl⟩ | ⟨_, earlier⟩ <;>
      rcases pushed.lookup_cases foundOther with ⟨rfl, same⟩ | ⟨_, earlierOther⟩
    · rfl
    · exact absurd (grown.bounded another _ earlierOther) (Nat.lt_irrefl _)
    · rw [same] at earlier
      exact absurd (grown.bounded other _ earlier) (Nat.lt_irrefl _)
    · exact grown.distinct other another output large earlier earlierOther

theorem kept_grown : Kept input replacements (Grown input replacements) := by
  intro state id decl members present fresh grown
  cases chosen : replacements.lookup id with
  | some replacement =>
      rw [settle_of_replaced input state decl members chosen]
      exact grown.push present fresh rfl rfl (by rw [chosen]; rfl)
  | none =>
      by_cases same : members = decl.members
      · subst same
        rw [settle_of_same input state decl chosen]
        exact grown.keep present fresh chosen
      · rw [settle_of_changed input state chosen same]
        exact grown.push present fresh rfl rfl (by rw [chosen]; rfl)

/-- What a conversion ends with, whatever the tree. -/
theorem run_grown (input : SyntaxTree) (replacements : List (NodeId × Replacement)) :
    Grown input replacements (run input replacements) := by
  have grow := (node_nodes_kept (@kept_grown input replacements)).2
  have first := (grow [] ⟨input, []⟩ input.unit.types (grown_start input replacements)).1
  have second := (grow [] _ ((replacements.map Prod.fst).mergeSort (· ≤ ·)) first).1
  exact ⟨second.size, second.nodes, second.taken, second.bounded, second.origin, second.distinct⟩

/-- Every class that is to be replaced is settled in the end. -/
theorem run_settles (input : SyntaxTree) (replacements : List (NodeId × Replacement)) :
    AllSettled input (run input replacements) (replacements.map Prod.fst) := by
  intro id listed
  exact nodes_settle _ _ id (List.mem_mergeSort.mpr listed)

/-- A conversion changes neither the package nor the imports of the unit, and keeps the number of
its types. -/
theorem run_unit (input : SyntaxTree) (replacements : List (NodeId × Replacement)) :
    ∃ types, (run input replacements).tree.unit = { input.unit with types } ∧
      types.length = input.unit.types.length :=
  ⟨_, rfl, length_nodes [] ⟨input, []⟩ input.unit.types⟩

end Rebuild

end JavaRecords
