import JavaRecords.Proofs.Conversion.Notes

set_option autoImplicit false

namespace JavaRecords

namespace SyntaxTree

variable {tree : SyntaxTree}

theorem Ordered.acyclic (ordered : tree.Ordered) : tree.Acyclic := by
  apply acyclic_of_lt
  rintro parent child ⟨decl, present, listed, _⟩
  exact ordered parent decl present child listed

theorem Ordered.member_lt (ordered : tree.Ordered) {id member : NodeId} {decl : ClassDecl}
    (present : tree.class? id = some decl) (listed : member ∈ decl.members) :
    member < tree.nodes.size :=
  Nat.lt_trans (ordered id decl present member listed) (lt_of_class? present)

/-- The members of a new class are nodes of the tree that it is added to. -/
theorem Ordered.push (ordered : tree.Ordered) {node : Node} (trivia : TriviaTable)
    (members : ∀ decl, node = .classDecl decl → ∀ member ∈ decl.members,
      member < tree.nodes.size) :
    ({ tree with nodes := tree.nodes.push node, trivia } : SyntaxTree).Ordered := by
  intro id decl present member listed
  have bound := lt_of_class? present
  rw [Array.size_push] at bound
  rcases Nat.lt_succ_iff_lt_or_eq.mp bound with old | rfl
  · rw [class?_congr (tree.node?_push_of_lt node trivia id old)] at present
    exact ordered id decl present member listed
  · have stored := node?_of_class? present
    rw [node?_push_size] at stored
    exact members decl (Option.some.inj stored) member listed

/-- How a class is judged depends on its node and its members. -/
theorem resolveMembers_congr {other : SyntaxTree} {ids : List NodeId}
    (same : ∀ id ∈ ids, other.node? id = tree.node? id) (seen : List NodeId)
    (lastField : Option Nat) :
    other.resolveMembers seen lastField ids = tree.resolveMembers seen lastField ids := by
  induction ids generalizing seen lastField with
  | nil => rfl
  | cons id rest ih =>
      have others := ih fun member listed => same member (List.mem_cons_of_mem _ listed)
      have here : other.checkMember seen lastField id = tree.checkMember seen lastField id := by
        unfold checkMember
        rw [same id List.mem_cons_self]
      simp only [resolveMembers, here, others]

theorem judge_congr {other : SyntaxTree} {id : NodeId} (same : other.node? id = tree.node? id)
    (members : ∀ decl, tree.class? id = some decl → ∀ member ∈ decl.members,
      other.node? member = tree.node? member) : other.judge id = tree.judge id := by
  have resolved : other.resolveClass id = tree.resolveClass id := by
    unfold resolveClass
    rw [same]
    cases found : tree.node? id with
    | none => rfl
    | some node =>
        cases node
        case classDecl decl =>
          dsimp only
          rw [resolveMembers_congr (members decl (class?_of_node? found))]
        all_goals rfl
  unfold judge
  rw [resolved]

end SyntaxTree

namespace Rebuild

variable {input : SyntaxTree} {replacements : List (NodeId × Replacement)} {state : Rebuild}

/-- New classes stand after their members. -/
theorem run_ordered (ordered : input.Ordered) (kept : MembersKept input replacements) :
    (run input replacements).tree.Ordered := by
  refine run_keeps ordered.acyclic kept (fun state => state.tree.Ordered) ?_
    (fun _ _ keeps => keeps) ordered
  intro state id decl sound present _ keeps
  cases chosen : replacements.lookup id with
  | some replacement =>
      rw [settle_of_replaced input state decl _ chosen]
      exact keeps.push _ fun _ same => by cases same
  | none =>
      by_cases same : decl.members.map state.image = decl.members
      · rw [same, settle_of_same input state decl chosen]
        exact keeps
      · rw [settle_of_changed input state chosen same]
        refine keeps.push _ fun copy copied member listed => ?_
        cases copied
        obtain ⟨origin, among, rfl⟩ := List.mem_map.mp listed
        exact sound.image_lt (ordered.member_lt present among)

end Rebuild

namespace SyntaxTree

variable {tree : SyntaxTree}

/-- What the record of a class does without are members of the class. -/
theorem mem_elidedMembers {target member : NodeId} (elided : member ∈ tree.elidedMembers target) :
    ∃ decl, tree.class? target = some decl ∧ member ∈ decl.members ∧
      tree.class? member = none := by
  unfold elidedMembers at elided
  split at elided
  · rename_i replacement judged
    obtain ⟨decl, present⟩ := class?_of_judged judged
    exact ⟨decl, present, of_elided judged present elided⟩
  · cases elided

theorem elides_iff (target id : NodeId) :
    Rebuild.Elides (replacementsOf ([target].map tree.judge)) target id ↔
      id ∈ tree.elidedMembers target := by
  unfold Rebuild.Elides elidedMembers
  simp only [lookup_replacementsOf, List.mem_singleton, true_and]
  cases verdict : (tree.judge target).verdict <;> simp

namespace Ordered

variable (ordered : tree.Ordered) {target : NodeId}

include ordered

theorem sound (target : NodeId) : Rebuild.Sound tree (replacementsOf ([target].map tree.judge))
    (tree.rebuildOf [target]) :=
  (Rebuild.run_sound ordered.acyclic (tree.membersKept [target])).1

theorem convertClass (target : NodeId) : (tree.convertClass target).tree.Ordered :=
  Rebuild.run_ordered ordered (tree.membersKept [target])

theorem tidy_convertClass (tidy : tree.Tidy) (target : NodeId) :
    (tree.convertClass target).tree.Tidy :=
  (Rebuild.run_commented ordered.acyclic (tree.membersKept [target]) tidy).tidy

theorem node?_convertClass {id : NodeId} (known : id < tree.nodes.size) :
    (tree.convertClass target).tree.node? id = tree.node? id :=
  (ordered.sound target).nodes id known

theorem class?_convertClass {id : NodeId} (known : id < tree.nodes.size) :
    (tree.convertClass target).tree.class? id = tree.class? id :=
  class?_congr (ordered.node?_convertClass known)

/-- A class is judged as it was before the conversion of another. -/
theorem judge_convertClass {id : NodeId} (known : id < tree.nodes.size) :
    (tree.convertClass target).tree.judge id = tree.judge id :=
  judge_congr (ordered.node?_convertClass known) fun _ present _ listed =>
    ordered.node?_convertClass (ordered.member_lt present listed)

theorem reaches_of_convertClass {id inner : NodeId} (known : id < tree.nodes.size)
    (path : Relation.ReflTransGen (tree.convertClass target).tree.Holds id inner) :
    Relation.ReflTransGen tree.Holds id inner ∧ inner < tree.nodes.size := by
  induction path with
  | refl => exact ⟨.refl, known⟩
  | tail _ held ih =>
      obtain ⟨path, inside⟩ := ih
      obtain ⟨decl, present, listed, isClass⟩ := held
      rw [ordered.class?_convertClass inside] at present
      have below := ordered.member_lt present listed
      rw [ordered.class?_convertClass below] at isClass
      exact ⟨path.tail ⟨decl, present, listed, isClass⟩, below⟩

/-- A node that does not lead to the converted class stays in its place. -/
theorem image_eq {id : NodeId} (free : ¬ Relation.ReflTransGen tree.Holds id target) :
    (tree.rebuildOf [target]).image id = id := by
  refine (ordered.sound target).image_eq_of_free ordered fun inner path => ?_
  by_contra replaced
  obtain ⟨replacement, chosen⟩ := Option.ne_none_iff_exists'.mp replaced
  have same := ((lookup_replacementsOf tree [target] _ _).mp chosen).1
  rw [List.mem_singleton.mp same] at path
  exact free path

/-- The new tree has the comments of a node with what takes its place, but none of the members that
the record does without. -/
theorem get?_image (tidy : tree.Tidy) (isClass : (tree.class? target).isSome) {id : NodeId}
    (known : id < tree.nodes.size) :
    (tree.convertClass target).tree.trivia.get? ((tree.rebuildOf [target]).image id) =
      if id ∈ tree.elidedMembers target then none else tree.trivia.get? id := by
  have separate : Rebuild.Separate tree (replacementsOf ([target].map tree.judge)) :=
    separate_of_alone (fun _ _ present _ listed => ordered.member_lt present listed)
      fun _ _ _ _ _ isTarget isTargetOther _ _ _ _ =>
        (List.mem_singleton.mp isTarget).trans (List.mem_singleton.mp isTargetOther).symm
  have carried : Rebuild.Carried tree (replacementsOf ([target].map tree.judge))
      (tree.rebuildOf [target]) :=
    Rebuild.run_carried ordered.acyclic (tree.membersKept [target]) tidy separate
  have gone : Rebuild.Gone (replacementsOf ([target].map tree.judge)) (tree.rebuildOf [target]) id ↔
      id ∈ tree.elidedMembers target := by
    constructor
    · rintro ⟨holder, _, elided⟩
      have ⟨_, chosen, _⟩ := elided
      cases List.mem_singleton.mp ((lookup_replacementsOf tree [target] _ _).mp chosen).1
      exact (tree.elides_iff target id).mp elided
    · intro listed
      have elided := (tree.elides_iff target id).mpr listed
      have ⟨replacement, chosen, _⟩ := elided
      refine ⟨target, ?_, elided⟩
      exact (Rebuild.run_sound ordered.acyclic (tree.membersKept [target])).2.2.2 target
        (List.mem_map.mpr ⟨(target, replacement), mem_of_lookup chosen, rfl⟩) isClass
  by_cases elided : id ∈ tree.elidedMembers target
  · obtain ⟨_, _, _, isLeaf⟩ := mem_elidedMembers elided
    rw [if_pos elided, (ordered.sound target).onlyClasses.image_eq isLeaf]
    exact carried.gone id (gone.mpr elided)
  · rw [if_neg elided]
    exact carried.kept id known fun isGone => elided (gone.mp isGone)

end Ordered

end SyntaxTree

end JavaRecords
