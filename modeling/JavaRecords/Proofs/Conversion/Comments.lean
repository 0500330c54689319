import JavaRecords.Proofs.Conversion.Settled
import JavaRecords.Proofs.Parse.Outline

set_option autoImplicit false

namespace JavaRecords

namespace TriviaTable

theorem get?_copyFrom_eq_some {table source : TriviaTable} {id target other : NodeId}
    {found : Trivia} (present : (table.copyFrom source id target).get? other = some found) :
    (other = target ∧ source.get? id = some found) ∨ table.get? other = some found := by
  unfold copyFrom at present
  split at present
  · rename_i trivia copied
    rcases get?_insert_eq_some present with ⟨rfl, rfl⟩ | ⟨_, earlier⟩
    · exact Or.inl ⟨rfl, copied⟩
    · exact Or.inr earlier
  · exact Or.inr present

theorem get?_move_eq_some {table : TriviaTable} {id target other : NodeId} {found : Trivia}
    (present : (table.move id target).get? other = some found) :
    (other = target ∧ table.get? id = some found) ∨ table.get? other = some found := by
  unfold move at present
  split at present
  · rename_i trivia moved
    rcases get?_insert_eq_some present with ⟨rfl, rfl⟩ | ⟨_, earlier⟩
    · exact Or.inl ⟨rfl, moved⟩
    · exact Or.inr (get?_erase_eq_some earlier).2
  · exact Or.inr present

theorem get?_foldl_erase_eq_some {members : List (NodeId × ElideReason)} {table : TriviaTable}
    {other : NodeId} {found : Trivia}
    (present : (members.foldl (fun table member => table.erase member.1) table).get? other =
      some found) : table.get? other = some found := by
  induction members generalizing table with
  | nil => exact present
  | cons member rest ih => exact (get?_erase_eq_some (ih present)).2

theorem get?_foldl_copyFrom_eq_some {members : List NodeId} {table source : TriviaTable}
    {other : NodeId} {found : Trivia}
    (present : (members.foldl (fun table member => table.copyFrom source member member)
      table).get? other = some found) :
    source.get? other = some found ∨ table.get? other = some found := by
  induction members generalizing table with
  | nil => exact Or.inr present
  | cons member rest ih =>
      rcases ih present with copied | earlier
      · exact Or.inl copied
      · rcases get?_copyFrom_eq_some earlier with ⟨rfl, copied⟩ | before
        · exact Or.inl copied
        · exact Or.inr before

/-- Comments found after a record took the place of a class are those of the class, were there
before, or are as in the input. -/
theorem get?_moveToRecord_eq_some {table input : TriviaTable} {id record other : NodeId}
    {partition : Partition} {found : Trivia}
    (present : (table.moveToRecord input id partition record).get? other = some found) :
    (other = record ∧ input.get? id = some found) ∨ table.get? other = some found ∨
      input.get? other = some found := by
  unfold moveToRecord at present
  rcases get?_copyFrom_eq_some present with moved | earlier
  · exact Or.inl moved
  · rcases get?_foldl_copyFrom_eq_some (get?_erase_eq_some earlier).2 with copied | before
    · exact Or.inr (Or.inr copied)
    · exact Or.inr (Or.inl (get?_foldl_erase_eq_some before))

end TriviaTable

namespace Rebuild

variable {input : SyntaxTree} {replacements : List (NodeId × Replacement)}

/-- A property that settling a class keeps holds in the end if it held before. -/
theorem node_nodes_keep (acyclic : input.Acyclic) (kept : MembersKept input replacements)
    (property : Rebuild → Prop)
    (step : ∀ state id decl, Sound input replacements state → input.class? id = some decl →
      state.replaced.lookup id = none → property state →
      property (settle input replacements state id decl (decl.members.map state.image)).1) :
    (∀ visiting state id, Sound input replacements state → Leads input visiting id →
      property state → property (node input replacements visiting state id).1) ∧
    (∀ visiting state ids, Sound input replacements state →
      (∀ id ∈ ids, Leads input visiting id) →
      property state → property (nodes input replacements visiting state ids).1) := by
  have settles := node_nodes_settle acyclic kept
  apply node.mutual_induct
  · intro visiting state id done found _ _ holds
    rw [node, found]
    exact holds
  · intro visiting state id fresh absent _ _ holds
    rw [node_of_not_class fresh absent]
    exact holds
  · intro visiting state id fresh decl present met _ _ holds
    rw [node_of_visiting fresh met]
    exact holds
  · intro visiting state id fresh decl present unmet settledState members settledMembers ih sound
      leads holds
    have within : ∀ member ∈ decl.members, Leads input (id :: visiting) member :=
      fun member listed => leads.member present listed
    obtain ⟨advanced, images, _⟩ := settles.2 (id :: visiting) state decl.members sound within
    have inner := ih sound within holds
    rw [node_of_class fresh present unmet, images]
    exact step _ id decl advanced.sound present
      (advanced.waiting id List.mem_cons_self fresh) inner
  · intro visiting state _ _ holds
    rw [nodes]
    exact holds
  · intro visiting state id rest middle first settledFirst last others settledRest ihFirst ihRest
      sound leads holds
    have one := (settles.1 visiting state id sound (leads id List.mem_cons_self)).advances.sound
    have here := ihFirst sound (leads id List.mem_cons_self) holds
    rw [settledFirst] at one here
    have later := ihRest one (fun other listed => leads other (List.mem_cons_of_mem _ listed)) here
    rw [nodes, settledFirst]
    exact later

/-- What holds of the input, and is kept when a class is settled, holds in the end if it does not
depend on the unit of the tree. -/
theorem run_keeps (acyclic : input.Acyclic) (kept : MembersKept input replacements)
    (property : Rebuild → Prop)
    (step : ∀ state id decl, Sound input replacements state → input.class? id = some decl →
      state.replaced.lookup id = none → property state →
      property (settle input replacements state id decl (decl.members.map state.image)).1)
    (units : ∀ state unit, property state →
      property { state with tree := { state.tree with unit } })
    (start : property ⟨input, []⟩) : property (run input replacements) := by
  have free : ∀ ids : List NodeId, ∀ id ∈ ids, Leads input [] id := by
    intro _ id _ _ ancestor on
    cases on
  have keep := (node_nodes_keep acyclic kept property step).2
  have first := keep [] ⟨input, []⟩ input.unit.types (sound_start input replacements) (free _) start
  have sound := ((node_nodes_settle acyclic kept).2 [] ⟨input, []⟩ input.unit.types
    (sound_start input replacements) (free _)).advances.sound
  exact units _ _ (keep [] _ ((replacements.map Prod.fst).mergeSort (· ≤ ·)) sound (free _) first)

/-- The comments of the tree under way: nodes of the input have their own, and new nodes have those
of the class whose place they take. -/
structure Commented (input : SyntaxTree) (state : Rebuild) : Prop where
  tidy : state.tree.Tidy
  own : ∀ id trivia, id < input.nodes.size → state.tree.trivia.get? id = some trivia →
    input.trivia.get? id = some trivia
  moved : ∀ id output trivia, input.nodes.size ≤ output →
    state.replaced.lookup id = some output → state.tree.trivia.get? output = some trivia →
    input.trivia.get? id = some trivia

theorem Commented.push (tidyInput : input.Tidy) {state later : Rebuild} {id : NodeId} {node : Node}
    {trivia : TriviaTable} (sound : Sound input replacements state)
    (commented : Commented input state)
    (tree : later.tree = { state.tree with nodes := state.tree.nodes.push node, trivia })
    (replaced : later.replaced = (id, state.tree.nextId) :: state.replaced)
    (moves : ∀ other found, trivia.get? other = some found →
      (other = state.tree.nextId ∧ input.trivia.get? id = some found) ∨
        state.tree.trivia.get? other = some found ∨ input.trivia.get? other = some found) :
    Commented input later := by
  have size : later.tree.nodes.size = state.tree.nodes.size + 1 := by simp [tree]
  have table : later.tree.trivia = trivia := by rw [tree]
  refine ⟨⟨?_, ?_⟩, ?_, ?_⟩
  · intro other found present
    rw [table] at present
    rw [size]
    rcases moves other found present with ⟨rfl, _⟩ | earlier | own
    · exact Nat.lt_succ_self _
    · exact Nat.lt_succ_of_lt (commented.tidy.known other found earlier)
    · exact Nat.lt_succ_of_lt (Nat.lt_of_lt_of_le (tidyInput.known other found own) sound.size)
  · intro other found present
    rw [table] at present
    rcases moves other found present with ⟨_, moved⟩ | earlier | own
    · exact tidyInput.filled id found moved
    · exact commented.tidy.filled other found earlier
    · exact tidyInput.filled other found own
  · intro other found known present
    rw [table] at present
    rcases moves other found present with ⟨rfl, _⟩ | earlier | own
    · exact absurd (Nat.lt_of_lt_of_le known sound.size) (Nat.lt_irrefl _)
    · exact commented.own other found known earlier
    · exact own
  · intro other output found large looked present
    rw [table] at present
    rw [replaced] at looked
    by_cases same : other = id
    · subst same
      rw [List.lookup_cons_self] at looked
      cases looked
      rcases moves _ found present with ⟨_, moved⟩ | earlier | own
      · exact moved
      · exact absurd (commented.tidy.known _ found earlier) (Nat.lt_irrefl _)
      · exact absurd (Nat.lt_of_lt_of_le (tidyInput.known _ found own) sound.size)
          (Nat.lt_irrefl _)
    · rw [lookup_cons_of_ne _ same] at looked
      rcases moves _ found present with ⟨rfl, _⟩ | earlier | own
      · exact absurd (sound.bounded other _ looked) (Nat.lt_irrefl _)
      · exact commented.moved other output found large looked earlier
      · exact absurd (Nat.lt_of_lt_of_le (tidyInput.known _ found own) large) (Nat.lt_irrefl _)

theorem settle_commented (tidy : input.Tidy) {state : Rebuild} {id : NodeId} {decl : ClassDecl}
    (members : List NodeId) (sound : Sound input replacements state)
    (present : input.class? id = some decl) (commented : Commented input state) :
    Commented input (settle input replacements state id decl members).1 := by
  have known := SyntaxTree.lt_of_class? present
  cases chosen : replacements.lookup id with
  | some replacement =>
      rw [settle_of_replaced input state decl members chosen]
      exact commented.push tidy sound rfl rfl fun _ _ => TriviaTable.get?_moveToRecord_eq_some
  | none =>
      by_cases same : members = decl.members
      · subst same
        rw [settle_of_same input state decl chosen]
        refine ⟨commented.tidy, commented.own, ?_⟩
        intro other output found large looked
        by_cases here : other = id
        · subst here
          rw [List.lookup_cons_self] at looked
          cases looked
          exact absurd (Nat.lt_of_lt_of_le known large) (Nat.lt_irrefl _)
        · rw [lookup_cons_of_ne _ here] at looked
          exact commented.moved other output found large looked
      · rw [settle_of_changed input state chosen same]
        refine commented.push tidy sound rfl rfl fun other found present => ?_
        rcases TriviaTable.get?_move_eq_some present with ⟨rfl, moved⟩ | earlier
        · exact Or.inl ⟨rfl, commented.own id found known moved⟩
        · exact Or.inr (Or.inl earlier)

/-- In the end the images have the comments of the nodes whose place they take. -/
theorem run_commented (acyclic : input.Acyclic) (kept : MembersKept input replacements)
    (tidy : input.Tidy) : Commented input (run input replacements) := by
  refine run_keeps acyclic kept (Commented input) ?_ ?_ ?_
  · intro state id decl sound present _ commented
    exact settle_commented tidy _ sound present commented
  · intro state unit commented
    exact ⟨commented.tidy.with_unit unit, commented.own, commented.moved⟩
  · exact ⟨tidy, fun _ _ _ found => found, fun _ _ _ _ found => by cases found⟩

/-- A class whose image is a node of the input is its own image. -/
theorem Sound.eq_of_lt {state : Rebuild} (sound : Sound input replacements state)
    {id output : NodeId} (looked : state.replaced.lookup id = some output)
    (old : output < input.nodes.size) : output = id := by
  obtain ⟨decl, _, _, place⟩ := sound.settled id output looked
  cases chosen : replacements.lookup id with
  | some replacement =>
      rw [chosen] at place
      exact absurd (Nat.lt_of_lt_of_le old place.1) (Nat.lt_irrefl _)
  | none =>
      rw [chosen] at place
      dsimp only at place
      split at place
      · exact place
      · exact absurd (Nat.lt_of_lt_of_le old place.1) (Nat.lt_irrefl _)

theorem Commented.get?_of_image {state : Rebuild} (commented : Commented input state)
    (sound : Sound input replacements state) {id : NodeId} (known : id < input.nodes.size)
    {trivia : Trivia} (found : state.tree.trivia.get? (state.image id) = some trivia) :
    input.trivia.get? id = some trivia := by
  cases looked : state.replaced.lookup id with
  | none =>
      rw [image, looked, Option.getD_none] at found
      exact commented.own id trivia known found
  | some output =>
      rw [image_eq_of_lookup looked] at found
      by_cases old : output < input.nodes.size
      · rw [sound.eq_of_lt looked old] at found
        exact commented.own id trivia known found
      · exact commented.moved id output trivia (Nat.le_of_not_lt old) looked found

end Rebuild

end JavaRecords
