import JavaRecords.Conversion.Unit
import Mathlib.Logic.Relation

set_option autoImplicit false

namespace JavaRecords

namespace SyntaxTree

/-- A class holds the classes among its members. -/
def Holds (tree : SyntaxTree) (parent child : NodeId) : Prop :=
  ∃ decl, tree.class? parent = some decl ∧ child ∈ decl.members ∧ (tree.class? child).isSome

/-- No class holds itself, directly or through other classes. -/
def Acyclic (tree : SyntaxTree) : Prop := ∀ id, ¬ Relation.TransGen tree.Holds id id

theorem node?_of_class? {tree : SyntaxTree} {id : NodeId} {decl : ClassDecl}
    (found : tree.class? id = some decl) : tree.node? id = some (.classDecl decl) := by
  unfold class? at found
  split at found
  · rename_i stored same
    cases found
    exact same
  · cases found

theorem class?_of_node? {tree : SyntaxTree} {id : NodeId} {decl : ClassDecl}
    (found : tree.node? id = some (.classDecl decl)) : tree.class? id = some decl := by
  simp only [class?, found]

theorem class?_congr {tree other : SyntaxTree} {id : NodeId}
    (same : other.node? id = tree.node? id) :
    other.class? id = tree.class? id := by
  simp only [class?, same]

theorem node?_push_of_lt (tree : SyntaxTree) (node : Node) (trivia : TriviaTable) (id : NodeId)
    (known : id < tree.nodes.size) :
    ({ tree with nodes := tree.nodes.push node, trivia } : SyntaxTree).node? id =
      tree.node? id := by
  have earlier : id ≠ tree.nodes.size := Nat.ne_of_lt known
  simp [node?, Array.getElem?_push, earlier]

theorem node?_push_size (tree : SyntaxTree) (node : Node) (trivia : TriviaTable) :
    ({ tree with nodes := tree.nodes.push node, trivia } : SyntaxTree).node? tree.nodes.size =
      some node := by
  simp [node?]

end SyntaxTree

namespace Rebuild

variable {input : SyntaxTree} {replacements : List (NodeId × Replacement)}

/-- A later state keeps the nodes of an earlier one and what it settled. -/
structure Extends (state later : Rebuild) : Prop where
  size : state.tree.nodes.size ≤ later.tree.nodes.size
  nodes : ∀ id, id < state.tree.nodes.size → later.tree.node? id = state.tree.node? id
  replaced : ∀ id output, state.replaced.lookup id = some output →
    later.replaced.lookup id = some output

theorem Extends.refl (state : Rebuild) : Extends state state :=
  ⟨Nat.le_refl _, fun _ _ => rfl, fun _ _ found => found⟩

theorem Extends.trans {first second third : Rebuild} (left : Extends first second)
    (right : Extends second third) : Extends first third where
  size := Nat.le_trans left.size right.size
  nodes id known := by
    rw [right.nodes id (Nat.lt_of_lt_of_le known left.size), left.nodes id known]
  replaced id output found := right.replaced id output (left.replaced id output found)

def AllSettled (input : SyntaxTree) (state : Rebuild) (members : List NodeId) : Prop :=
  ∀ member ∈ members, (input.class? member).isSome → (state.replaced.lookup member).isSome

/-- What takes the place of a class: a record if the class is replaced, else a copy if the image of
a member differs from it, else the class itself. New nodes stand after those of the input. -/
def Settled (input : SyntaxTree) (replacements : List (NodeId × Replacement)) (state : Rebuild)
    (id : NodeId) (decl : ClassDecl) (output : NodeId) : Prop :=
  AllSettled input state decl.members ∧
    match replacements.lookup id with
    | some replacement =>
        input.nodes.size ≤ output ∧ state.tree.node? output = some (.record
          { replacement.record with members := replacement.record.members.map state.image })
    | none =>
        if decl.members.map state.image = decl.members then output = id
        else input.nodes.size ≤ output ∧ state.tree.node? output = some (.classDecl
          { decl with members := decl.members.map state.image })

/-- The invariant of a conversion under way. -/
structure Sound (input : SyntaxTree) (replacements : List (NodeId × Replacement))
    (state : Rebuild) : Prop where
  source : state.tree.source = input.source
  size : input.nodes.size ≤ state.tree.nodes.size
  nodes : ∀ id, id < input.nodes.size → state.tree.node? id = input.node? id
  settled : ∀ id output, state.replaced.lookup id = some output →
    ∃ decl, input.class? id = some decl ∧ Settled input replacements state id decl output
  bounded : ∀ id output, state.replaced.lookup id = some output →
    output < state.tree.nodes.size
  distinct : ∀ id other output, input.nodes.size ≤ output →
    state.replaced.lookup id = some output → state.replaced.lookup other = some output → id = other

/-- A replaced class keeps members of its own. -/
def MembersKept (input : SyntaxTree) (replacements : List (NodeId × Replacement)) : Prop :=
  ∀ id replacement decl, replacements.lookup id = some replacement →
    input.class? id = some decl → ∀ member ∈ replacement.record.members, member ∈ decl.members

theorem sound_start (input : SyntaxTree) (replacements : List (NodeId × Replacement)) :
    Sound input replacements ⟨input, []⟩ where
  source := rfl
  size := Nat.le_refl _
  nodes _ _ := rfl
  settled _ _ found := by cases found
  bounded _ _ found := by cases found
  distinct _ _ _ _ found := by cases found

theorem image_eq_of_lookup {state : Rebuild} {id output : NodeId}
    (found : state.replaced.lookup id = some output) : state.image id = output := by
  simp only [image, found, Option.getD_some]

def OnlyClasses (input : SyntaxTree) (state : Rebuild) : Prop :=
  ∀ id, input.class? id = none → state.replaced.lookup id = none

theorem Sound.onlyClasses {state : Rebuild} (sound : Sound input replacements state) :
    OnlyClasses input state := by
  intro id absent
  cases found : state.replaced.lookup id with
  | none => rfl
  | some output =>
      obtain ⟨decl, present, _⟩ := sound.settled id output found
      rw [absent] at present
      cases present

theorem OnlyClasses.image_eq {state : Rebuild} (only : OnlyClasses input state) {id : NodeId}
    (absent : input.class? id = none) : state.image id = id := by
  simp only [image, only id absent, Option.getD_none]

/-- The image of a node that is settled, or that is not a class, never changes. -/
theorem Extends.image_eq {state later : Rebuild} (extended : Extends state later)
    (only : OnlyClasses input later) {id : NodeId}
    (settled : (input.class? id).isSome → (state.replaced.lookup id).isSome) :
    later.image id = state.image id := by
  cases found : state.replaced.lookup id with
  | some output =>
      rw [image_eq_of_lookup found, image_eq_of_lookup (extended.replaced id output found)]
  | none =>
      have absent : input.class? id = none := by
        cases present : input.class? id with
        | none => rfl
        | some decl =>
            have contradiction := settled (by rw [present]; rfl)
            rw [found] at contradiction
            cases contradiction
      rw [only.image_eq absent]
      simp only [image, found, Option.getD_none]

theorem Extends.map_image_eq {state later : Rebuild} (extended : Extends state later)
    (only : OnlyClasses input later) {members : List NodeId}
    (settled : AllSettled input state members) :
    members.map later.image = members.map state.image := by
  apply List.map_congr_left
  intro member listed
  exact extended.image_eq only (settled member listed)

theorem AllSettled.mono {state later : Rebuild} (extended : Extends state later)
    {members : List NodeId} (settled : AllSettled input state members) :
    AllSettled input later members := by
  intro member listed isClass
  obtain ⟨output, found⟩ := Option.isSome_iff_exists.mp (settled member listed isClass)
  rw [extended.replaced member output found]
  rfl

/-- What is settled stays settled. -/
theorem Settled.mono (kept : MembersKept input replacements) {state later : Rebuild}
    (extended : Extends state later) (only : OnlyClasses input later) {id output : NodeId}
    {decl : ClassDecl} (present : input.class? id = some decl)
    (bounded : output < state.tree.nodes.size)
    (settled : Settled input replacements state id decl output) :
    Settled input replacements later id decl output := by
  obtain ⟨members, place⟩ := settled
  refine ⟨members.mono extended, ?_⟩
  cases chosen : replacements.lookup id with
  | some replacement =>
      rw [chosen] at place
      obtain ⟨new, node⟩ := place
      have within : AllSettled input state replacement.record.members := fun member listed =>
        members member (kept id replacement decl chosen present member listed)
      refine ⟨new, ?_⟩
      rw [extended.nodes output bounded, extended.map_image_eq only within]
      exact node
  | none =>
      rw [chosen] at place
      simp only [extended.map_image_eq only members, extended.nodes output bounded]
      exact place

theorem lookup_cons_of_ne {α : Type} {id other : NodeId} {output : α}
    (replaced : List (NodeId × α)) (different : other ≠ id) :
    List.lookup other ((id, output) :: replaced) = replaced.lookup other := by
  have skipped : (other == id) = false := by simpa using different
  simp only [List.lookup_cons, skipped]

/-- The states before and after a class is settled: the class has its image, and the tree has at
most one new node. -/
structure Pushes (state later : Rebuild) (id output : NodeId) : Prop where
  source : later.tree.source = state.tree.source
  size : state.tree.nodes.size ≤ later.tree.nodes.size
  nodes : ∀ other, other < state.tree.nodes.size → later.tree.node? other = state.tree.node? other
  replaced : later.replaced = (id, output) :: state.replaced

theorem pushes_of_push {state later : Rebuild} {id output : NodeId} {node : Node}
    {trivia : TriviaTable}
    (tree : later.tree = { state.tree with nodes := state.tree.nodes.push node, trivia })
    (replaced : later.replaced = (id, output) :: state.replaced) :
    Pushes state later id output where
  source := by rw [tree]
  size := by simp [tree]
  nodes other known := by rw [tree, SyntaxTree.node?_push_of_lt _ _ _ _ known]
  replaced := replaced

/-- Settling a class that was not settled keeps what was settled before. -/
theorem Pushes.extends {state later : Rebuild} {id output : NodeId}
    (pushed : Pushes state later id output) (fresh : state.replaced.lookup id = none) :
    Extends state later where
  size := pushed.size
  nodes := pushed.nodes
  replaced other found present := by
    have different : other ≠ id := by
      rintro rfl
      rw [fresh] at present
      cases present
    rw [pushed.replaced, lookup_cons_of_ne _ different, present]

/-- An id looked up after a class is settled is that class, or was settled before. -/
theorem Pushes.lookup_cases {state later : Rebuild} {id new : NodeId}
    (pushed : Pushes state later id new) {other output : NodeId}
    (found : later.replaced.lookup other = some output) :
    (other = id ∧ output = new) ∨ (other ≠ id ∧ state.replaced.lookup other = some output) := by
  rw [pushed.replaced] at found
  by_cases same : other = id
  · subst same
    simp only [List.lookup_cons_self, Option.some.injEq] at found
    exact Or.inl ⟨rfl, found.symm⟩
  · rw [lookup_cons_of_ne _ same] at found
    exact Or.inr ⟨same, found⟩

/-- Settling a class leaves everything but classes as it is. -/
theorem Pushes.onlyClasses {state later : Rebuild} {id output : NodeId}
    (pushed : Pushes state later id output) (sound : Sound input replacements state)
    (isClass : (input.class? id).isSome) : OnlyClasses input later := by
  intro other absent
  have different : other ≠ id := by
    rintro rfl
    rw [absent] at isClass
    cases isClass
  rw [pushed.replaced, lookup_cons_of_ne _ different]
  exact sound.onlyClasses other absent

theorem settle_of_replaced (input : SyntaxTree) {replacements : List (NodeId × Replacement)}
    (state : Rebuild) {id : NodeId} (decl : ClassDecl) (members : List NodeId)
    {replacement : Replacement} (chosen : replacements.lookup id = some replacement) :
    settle input replacements state id decl members =
      (⟨state.addRecord input id replacement, (id, state.tree.nextId) :: state.replaced⟩,
        state.tree.nextId) := by
  simp only [settle, chosen]

theorem settle_of_changed (input : SyntaxTree) {replacements : List (NodeId × Replacement)}
    (state : Rebuild) {id : NodeId} {decl : ClassDecl} {members : List NodeId}
    (kept : replacements.lookup id = none) (changed : members ≠ decl.members) :
    settle input replacements state id decl members =
      (⟨state.addCopy id decl members, (id, state.tree.nextId) :: state.replaced⟩,
        state.tree.nextId) := by
  simp only [settle, kept, changed, ↓reduceIte]

theorem settle_of_same (input : SyntaxTree) {replacements : List (NodeId × Replacement)}
    (state : Rebuild) {id : NodeId} (decl : ClassDecl)
    (kept : replacements.lookup id = none) :
    settle input replacements state id decl decl.members =
      (⟨state.tree, (id, id) :: state.replaced⟩, id) := by
  simp only [settle, kept, ↓reduceIte]

theorem settle_pushes (input : SyntaxTree) (replacements : List (NodeId × Replacement))
    (state : Rebuild) (id : NodeId) (decl : ClassDecl) (members : List NodeId) :
    Pushes state (settle input replacements state id decl members).1 id
      (settle input replacements state id decl members).2 := by
  cases chosen : replacements.lookup id with
  | some replacement =>
      rw [settle_of_replaced input state decl members chosen]
      exact pushes_of_push rfl rfl
  | none =>
      by_cases same : members = decl.members
      · subst same
        rw [settle_of_same input state decl chosen]
        exact ⟨rfl, Nat.le_refl _, fun _ _ => rfl, rfl⟩
      · rw [settle_of_changed input state chosen same]
        exact pushes_of_push rfl rfl

/-- A class whose members are settled is settled by `settle`. -/
theorem settle_settled (kept : MembersKept input replacements) {state : Rebuild} {id : NodeId}
    {decl : ClassDecl} (sound : Sound input replacements state)
    (present : input.class? id = some decl) (fresh : state.replaced.lookup id = none)
    (members : AllSettled input state decl.members) :
    Settled input replacements
      (settle input replacements state id decl (decl.members.map state.image)).1 id decl
      (settle input replacements state id decl (decl.members.map state.image)).2 := by
  have pushed := settle_pushes input replacements state id decl (decl.members.map state.image)
  have extended := pushed.extends fresh
  have only := pushed.onlyClasses sound (by rw [present]; rfl)
  refine ⟨members.mono extended, ?_⟩
  cases chosen : replacements.lookup id with
  | some replacement =>
      have within : AllSettled input state replacement.record.members := fun member listed =>
        members member (kept id replacement decl chosen present member listed)
      simp only [extended.map_image_eq only within]
      rw [settle_of_replaced input state decl _ chosen]
      exact ⟨sound.size, SyntaxTree.node?_push_size _ _ _⟩
  | none =>
      simp only [extended.map_image_eq only members]
      by_cases same : decl.members.map state.image = decl.members
      · rw [if_pos same, same, settle_of_same input state decl chosen]
      · rw [if_neg same, settle_of_changed input state chosen same]
        exact ⟨sound.size, SyntaxTree.node?_push_size _ _ _⟩

/-- The image that `settle` gives is a node of the tree, and a new one is the last. -/
theorem settle_output {state : Rebuild} {id : NodeId} {decl : ClassDecl} (members : List NodeId)
    (sound : Sound input replacements state) (present : input.class? id = some decl) :
    (settle input replacements state id decl members).2 <
        (settle input replacements state id decl members).1.tree.nodes.size ∧
      (input.nodes.size ≤ (settle input replacements state id decl members).2 →
        (settle input replacements state id decl members).2 = state.tree.nodes.size) := by
  have known : id < input.nodes.size := SyntaxTree.lt_of_class? present
  cases chosen : replacements.lookup id with
  | some replacement =>
      rw [settle_of_replaced input state decl members chosen]
      simp [addRecord, SyntaxTree.nextId]
  | none =>
      by_cases same : members = decl.members
      · subst same
        rw [settle_of_same input state decl chosen]
        exact ⟨Nat.lt_of_lt_of_le known sound.size,
          fun large => absurd known (Nat.not_lt.mpr large)⟩
      · rw [settle_of_changed input state chosen same]
        simp [addCopy, SyntaxTree.nextId]

theorem settle_sound (kept : MembersKept input replacements) {state : Rebuild} {id : NodeId}
    {decl : ClassDecl} (sound : Sound input replacements state)
    (present : input.class? id = some decl) (fresh : state.replaced.lookup id = none)
    (members : AllSettled input state decl.members) :
    Sound input replacements
      (settle input replacements state id decl (decl.members.map state.image)).1 := by
  have pushed := settle_pushes input replacements state id decl (decl.members.map state.image)
  have settled := settle_settled kept sound present fresh members
  have output := settle_output (decl.members.map state.image) sound present
  generalize (settle input replacements state id decl (decl.members.map state.image)).1 = later
    at pushed settled output ⊢
  generalize (settle input replacements state id decl (decl.members.map state.image)).2 = new
    at pushed settled output
  have extended := pushed.extends fresh
  have only := pushed.onlyClasses sound (by rw [present]; rfl)
  refine ⟨pushed.source.trans sound.source, Nat.le_trans sound.size pushed.size, ?_, ?_, ?_, ?_⟩
  · intro other known
    rw [pushed.nodes other (Nat.lt_of_lt_of_le known sound.size), sound.nodes other known]
  · intro other found looked
    rcases pushed.lookup_cases looked with ⟨rfl, rfl⟩ | ⟨_, earlier⟩
    · exact ⟨decl, present, settled⟩
    · obtain ⟨otherDecl, otherPresent, otherSettled⟩ := sound.settled other found earlier
      exact ⟨otherDecl, otherPresent, otherSettled.mono kept extended only otherPresent
        (sound.bounded other found earlier)⟩
  · intro other found looked
    rcases pushed.lookup_cases looked with ⟨rfl, rfl⟩ | ⟨_, earlier⟩
    · exact output.1
    · exact Nat.lt_of_lt_of_le (sound.bounded other found earlier) pushed.size
  · intro first second found large lookedFirst lookedSecond
    rcases pushed.lookup_cases lookedFirst with ⟨rfl, rfl⟩ | ⟨_, earlierFirst⟩ <;>
      rcases pushed.lookup_cases lookedSecond with ⟨rfl, same⟩ | ⟨_, earlierSecond⟩
    · rfl
    · have bound := sound.bounded second found earlierSecond
      rw [output.2 large] at bound
      exact absurd bound (Nat.lt_irrefl _)
    · subst same
      have bound := sound.bounded first found earlierFirst
      rw [output.2 large] at bound
      exact absurd bound (Nat.lt_irrefl _)
    · exact sound.distinct first second found large earlierFirst earlierSecond

theorem node_of_not_class {visiting : List NodeId} {state : Rebuild} {id : NodeId}
    (fresh : state.replaced.lookup id = none) (absent : input.class? id = none) :
    node input replacements visiting state id = (state, id) := by
  rw [node, fresh]
  dsimp only
  split
  · rfl
  · rename_i decl present
    rw [absent] at present
    cases present

theorem node_of_visiting {visiting : List NodeId} {state : Rebuild} {id : NodeId}
    (fresh : state.replaced.lookup id = none) (met : visiting.contains id = true) :
    node input replacements visiting state id = (state, id) := by
  rw [node, fresh]
  dsimp only
  split
  · rfl
  · rw [dif_pos met]

theorem node_of_class {visiting : List NodeId} {state : Rebuild} {id : NodeId} {decl : ClassDecl}
    (fresh : state.replaced.lookup id = none) (present : input.class? id = some decl)
    (unmet : ¬ visiting.contains id = true) :
    node input replacements visiting state id =
      settle input replacements (nodes input replacements (id :: visiting) state decl.members).1 id
        decl (nodes input replacements (id :: visiting) state decl.members).2 := by
  rw [node, fresh]
  dsimp only
  split
  · rename_i absent
    rw [present] at absent
    cases absent
  · rename_i other found
    rw [present] at found
    cases found
    rw [dif_neg unmet]

/-- What settling does to a state: the invariant stays, and so does what was settled, and the
classes on the way are not settled yet. -/
structure Advances (input : SyntaxTree) (replacements : List (NodeId × Replacement))
    (visiting : List NodeId) (state later : Rebuild) : Prop where
  sound : Sound input replacements later
  extends_ : Extends state later
  waiting : ∀ id ∈ visiting, state.replaced.lookup id = none → later.replaced.lookup id = none

theorem Advances.refl {visiting : List NodeId} {state : Rebuild}
    (sound : Sound input replacements state) :
    Advances input replacements visiting state state :=
  ⟨sound, Extends.refl state, fun _ _ absent => absent⟩

theorem Advances.trans {visiting : List NodeId} {first second third : Rebuild}
    (left : Advances input replacements visiting first second)
    (right : Advances input replacements visiting second third) :
    Advances input replacements visiting first third :=
  ⟨right.sound, left.extends_.trans right.extends_, fun id on absent =>
    right.waiting id on (left.waiting id on absent)⟩

/-- The classes on the way to a node hold it. -/
def Leads (input : SyntaxTree) (visiting : List NodeId) (id : NodeId) : Prop :=
  (input.class? id).isSome → ∀ ancestor ∈ visiting, Relation.TransGen input.Holds ancestor id

theorem Leads.member {visiting : List NodeId} {id member : NodeId} {decl : ClassDecl}
    (leads : Leads input visiting id) (present : input.class? id = some decl)
    (listed : member ∈ decl.members) : Leads input (id :: visiting) member := by
  intro isClass ancestor on
  have held : input.Holds id member := ⟨decl, present, listed, isClass⟩
  rcases List.mem_cons.mp on with rfl | above
  · exact Relation.TransGen.single held
  · exact (leads (by rw [present]; rfl) ancestor above).tail held

/-- Settling the nodes `ids` leads from one state to a later one and gives their images. -/
structure Settles (input : SyntaxTree) (replacements : List (NodeId × Replacement))
    (visiting : List NodeId) (state later : Rebuild) (ids images : List NodeId) : Prop where
  advances : Advances input replacements visiting state later
  images : images = ids.map later.image
  all : AllSettled input later ids

theorem Settles.nil {visiting : List NodeId} {state : Rebuild}
    (sound : Sound input replacements state) :
    Settles input replacements visiting state state [] [] :=
  ⟨Advances.refl sound, rfl, fun _ listed => by cases listed⟩

theorem Settles.cons {visiting : List NodeId} {state middle later : Rebuild} {id image : NodeId}
    {ids images : List NodeId}
    (first : Settles input replacements visiting state middle [id] [image])
    (rest : Settles input replacements visiting middle later ids images) :
    Settles input replacements visiting state later (id :: ids) (image :: images) := by
  have stays := rest.advances.extends_.image_eq rest.advances.sound.onlyClasses
    (first.all id (List.mem_singleton.mpr rfl))
  refine ⟨first.advances.trans rest.advances, ?_, ?_⟩
  · have own : image = middle.image id := (List.cons.inj first.images).1
    rw [List.map_cons, stays, ← own, rest.images]
  · intro member listed isClass
    rcases List.mem_cons.mp listed with rfl | later
    · exact first.all.mono rest.advances.extends_ member (List.mem_singleton.mpr rfl) isClass
    · exact rest.all member later isClass

theorem Settles.done {visiting : List NodeId} {state : Rebuild} {id image : NodeId}
    (sound : Sound input replacements state) (same : image = state.image id)
    (settled : (input.class? id).isSome → (state.replaced.lookup id).isSome) :
    Settles input replacements visiting state state [id] [image] := by
  refine ⟨Advances.refl sound, congrArg (fun image => [image]) same,
    fun member listed isClass => ?_⟩
  rw [List.mem_singleton.mp listed] at isClass ⊢
  exact settled isClass

theorem Settles.class {visiting images : List NodeId} {state middle : Rebuild} {id : NodeId}
    {decl : ClassDecl} (kept : MembersKept input replacements)
    (fresh : state.replaced.lookup id = none) (present : input.class? id = some decl)
    (unmet : ¬ visiting.contains id = true)
    (inner : Settles input replacements (id :: visiting) state middle decl.members images) :
    let settled := settle input replacements middle id decl images
    Settles input replacements visiting state settled.1 [id] [settled.2] := by
  obtain ⟨advanced, rfl, all⟩ := inner
  intro settled
  have waiting := advanced.waiting id List.mem_cons_self fresh
  have pushed := settle_pushes input replacements middle id decl (decl.members.map middle.image)
  have looked : settled.1.replaced.lookup id = some settled.2 := by
    rw [pushed.replaced, List.lookup_cons_self]
  refine ⟨⟨settle_sound kept advanced.sound present waiting all,
    advanced.extends_.trans (pushed.extends waiting), ?_⟩,
    congrArg (fun image => [image]) (image_eq_of_lookup looked).symm, ?_⟩
  · intro other on absent
    have different : other ≠ id := by
      rintro rfl
      exact unmet (List.contains_iff_mem.mpr on)
    rw [pushed.replaced, lookup_cons_of_ne _ different]
    exact advanced.waiting other (List.mem_cons_of_mem _ on) absent
  · intro member listed _
    rw [List.mem_singleton.mp listed, looked]
    rfl

theorem node_nodes_settle (acyclic : input.Acyclic) (kept : MembersKept input replacements) :
    (∀ visiting state id, Sound input replacements state → Leads input visiting id →
      let result := node input replacements visiting state id
      Settles input replacements visiting state result.1 [id] [result.2]) ∧
    (∀ visiting state ids, Sound input replacements state →
      (∀ id ∈ ids, Leads input visiting id) →
      let result := nodes input replacements visiting state ids
      Settles input replacements visiting state result.1 ids result.2) := by
  apply node.mutual_induct
  · intro visiting state id done found sound _
    have unfolded : node input replacements visiting state id = (state, done) := by
      rw [node, found]
    rw [unfolded]
    exact .done sound (image_eq_of_lookup found).symm fun _ => by rw [found]; rfl
  · intro visiting state id fresh absent sound _
    rw [node_of_not_class fresh absent]
    refine .done sound (sound.onlyClasses.image_eq absent).symm fun isClass => ?_
    rw [absent] at isClass
    cases isClass
  · intro visiting state id _ decl present met _ leads
    have itself := leads (by rw [present]; rfl) id (List.contains_iff_mem.mp met)
    exact absurd itself (acyclic id)
  · intro visiting state id fresh decl present unmet middle members settledMembers ih sound leads
    have inner := ih sound fun member listed => leads.member present listed
    rw [settledMembers] at inner
    rw [node_of_class fresh present unmet, settledMembers]
    exact .class kept fresh present unmet inner
  · intro visiting state sound _
    rw [nodes]
    exact .nil sound
  · intro visiting state id rest middle first settledFirst last others settledRest ihFirst ihRest
      sound leads
    have one := ihFirst sound (leads id List.mem_cons_self)
    rw [settledFirst] at one
    have more := ihRest one.advances.sound fun other listed =>
      leads other (List.mem_cons_of_mem _ listed)
    rw [settledRest] at more
    have unfolded : nodes input replacements visiting state (id :: rest) =
        (last, first :: others) := by
      rw [nodes]
      simp only [settledFirst, settledRest]
    rw [unfolded]
    exact one.cons more

/-- The unit of the tree does not matter to the invariant. -/
theorem Sound.with_unit {state : Rebuild} (sound : Sound input replacements state)
    (unit : CompilationUnit) :
    Sound input replacements { state with tree := { state.tree with unit } } :=
  ⟨sound.source, sound.size, sound.nodes, sound.settled, sound.bounded, sound.distinct⟩

/-- What a conversion ends with: every type of the unit, and every class that is replaced, is
settled, and the unit lists the images of its types. -/
theorem run_sound (acyclic : input.Acyclic) (kept : MembersKept input replacements) :
    let state := run input replacements
    Sound input replacements state ∧
      state.tree.unit = { input.unit with types := input.unit.types.map state.image } ∧
      AllSettled input state input.unit.types ∧
      AllSettled input state (replacements.map Prod.fst) := by
  have free : ∀ ids : List NodeId, ∀ id ∈ ids, Leads input [] id := by
    intro _ id _ _ ancestor on
    cases on
  have settle := (node_nodes_settle acyclic kept).2
  obtain ⟨first, types, settledTypes⟩ := settle [] ⟨input, []⟩ input.unit.types
    (sound_start input replacements) (free _)
  obtain ⟨second, _, settledRest⟩ := settle []
    (nodes input replacements [] ⟨input, []⟩ input.unit.types).1
    ((replacements.map Prod.fst).mergeSort (· ≤ ·)) first.sound (free _)
  refine ⟨second.sound.with_unit _, ?_, settledTypes.mono second.extends_, ?_⟩
  · have stays := second.extends_.map_image_eq second.sound.onlyClasses settledTypes
    simp only [run, types, ← stays]
    rfl
  · intro id listed
    exact settledRest id (List.mem_mergeSort.mpr listed)

end Rebuild

end JavaRecords
