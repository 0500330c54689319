import JavaRecords.Proofs.Conversion.Code

set_option autoImplicit false

namespace JavaRecords

namespace SyntaxTree

/-- Whether a member is a constructor that only assigns components from its parameters, in order. -/
def hasCanonicalShape (tree : SyntaxTree) (components : List Component) (member : NodeId) : Bool :=
  match tree.node? member with
  | some (.constructor decl) => isCanonical decl components
  | _ => false

/-- Whether the record of a class provides a member by itself: the canonical constructor, a field
that is not static, or a trivial accessor. -/
def provides (tree : SyntaxTree) (eligible : Eligible) (member : NodeId) : Bool :=
  member == eligible.canonical ||
    match tree.node? member with
    | some (.field field) => !field.modifiers.has .static
    | some (.method method) => isTrivialAccessor method eligible
    | _ => false

end SyntaxTree

namespace ClassView

variable {tree : SyntaxTree} {view : ClassView} {eligible : Eligible}

theorem mem_instanceFields {id : NodeId} {field : FieldDecl} : (id, field) ∈ view.instanceFields ↔
    ⟨id, .field field⟩ ∈ view.members ∧ field.modifiers.has .static = false := by
  unfold instanceFields fields
  rw [List.mem_filter, List.mem_filterMap]
  constructor
  · rintro ⟨⟨⟨own, node⟩, listed, isField⟩, notStatic⟩
    cases node <;> cases isField
    exact ⟨listed, by simpa using notStatic⟩
  · rintro ⟨listed, notStatic⟩
    exact ⟨⟨_, listed, rfl⟩, by simpa using notStatic⟩

theorem isComponentField_iff (found : view.classify = .eligible eligible)
    (nodes : ∀ member ∈ view.members, tree.node? member.id = some member.node) {member : Member}
    (listed : member ∈ view.members) : eligible.isComponentField member.id = true ↔
      ∃ field, member.node = .field field ∧ field.modifiers.has .static = false := by
  unfold Eligible.isComponentField
  rw [components_of_eligible found, List.any_map, List.any_eq_true]
  constructor
  · rintro ⟨⟨id, field⟩, isField, same⟩
    obtain ⟨inside, notStatic⟩ := mem_instanceFields.mp isField
    have equal : id = member.id := by simpa using same
    subst equal
    have stored := nodes _ inside
    rw [nodes member listed, Option.some.injEq] at stored
    exact ⟨field, stored, notStatic⟩
  · rintro ⟨field, isField, notStatic⟩
    refine ⟨(member.id, field), mem_instanceFields.mpr ⟨?_, notStatic⟩, by simp⟩
    rw [← isField]
    exact listed

/-- What becomes of a member is decided by whether the record provides it. -/
theorem disposition_eq_retain_iff (found : view.classify = .eligible eligible)
    (nodes : ∀ member ∈ view.members, tree.node? member.id = some member.node) {member : Member}
    (listed : member ∈ view.members) :
    disposition eligible member = .retain ↔ tree.provides eligible member.id = false := by
  have component := isComponentField_iff found nodes listed
  unfold disposition SyntaxTree.provides
  rw [nodes member listed]
  by_cases canonical : member.id = eligible.canonical
  · simp [canonical]
  · rw [if_neg canonical, beq_eq_false_iff_ne.mpr canonical, Bool.false_or]
    cases isField : eligible.isComponentField member.id with
    | true =>
        obtain ⟨field, same, notStatic⟩ := component.mp isField
        simp [same, notStatic]
    | false =>
        rw [if_neg Bool.false_ne_true]
        cases same : member.node with
        | field field =>
            have static : field.modifiers.has .static = true := by
              by_contra notStatic
              have contradiction := component.mpr ⟨field, same, by simpa using notStatic⟩
              rw [isField] at contradiction
              cases contradiction
            simp [static]
        | method method =>
            dsimp only
            cases isTrivialAccessor method eligible <;> simp
        | _ => simp

variable {id : NodeId} {decl : ClassDecl} {members : List Member}

/-- A record keeps the members that it does not provide, in declaration order. -/
theorem retained_partition (found : ClassView.classify ⟨id, decl, members⟩ = .eligible eligible)
    (ids : members.map Member.id = decl.members)
    (nodes : ∀ member ∈ members, tree.node? member.id = some member.node) :
    (ClassView.partition ⟨id, decl, members⟩ eligible).retained =
      decl.members.filter fun member => !tree.provides eligible member := by
  unfold Partition.retained partition
  dsimp only
  rw [List.filter_map, List.map_map, ← ids, List.filter_map]
  refine congrArg (List.map Member.id) (List.filter_congr fun member listed => ?_)
  have retain := disposition_eq_retain_iff found nodes listed
  cases provided : tree.provides eligible member.id with
  | true =>
      have dropped : disposition eligible member ≠ .retain := by
        rw [Ne, retain, provided]
        exact Bool.noConfusion
      simp [provided, dropped]
  | false => simp [provided, retain.mpr provided]

/-- A record does without the members that it provides. -/
theorem mem_elided_partition
    (found : ClassView.classify ⟨id, decl, members⟩ = .eligible eligible)
    (ids : members.map Member.id = decl.members)
    (nodes : ∀ member ∈ members, tree.node? member.id = some member.node) {other : NodeId} :
    other ∈ (ClassView.partition ⟨id, decl, members⟩ eligible).elided.map Prod.fst ↔
      other ∈ decl.members ∧ tree.provides eligible other = true := by
  have elided : other ∈ (ClassView.partition ⟨id, decl, members⟩ eligible).elided.map Prod.fst ↔
      ∃ member ∈ members, member.id = other ∧ disposition eligible member ≠ .retain := by
    simp only [Partition.elided, partition, List.mem_map, List.mem_filterMap]
    constructor
    · rintro ⟨⟨own, reason⟩, ⟨_, ⟨member, listed, rfl⟩, given⟩, rfl⟩
      refine ⟨member, listed, ?_, fun retained => ?_⟩
      · cases disposed : disposition eligible member <;> simp [disposed] at given
        exact given.1
      · simp [retained] at given
    · rintro ⟨member, listed, rfl, dropped⟩
      cases disposed : disposition eligible member with
      | retain => exact absurd disposed dropped
      | elide reason => exact ⟨(member.id, reason),
          ⟨_, ⟨member, listed, rfl⟩, by simp [disposed]⟩, rfl⟩
  rw [elided, ← ids]
  constructor
  · rintro ⟨member, listed, rfl, dropped⟩
    refine ⟨List.mem_map_of_mem listed, ?_⟩
    rw [Ne, disposition_eq_retain_iff found nodes listed] at dropped
    simpa using dropped
  · rintro ⟨inside, provided⟩
    obtain ⟨member, listed, rfl⟩ := List.mem_map.mp inside
    refine ⟨member, listed, rfl, fun retained => ?_⟩
    have kept := (disposition_eq_retain_iff found nodes listed).mp retained
    rw [provided] at kept
    cases kept

theorem find?_canonical (found : ClassView.classify ⟨id, decl, members⟩ = .eligible eligible)
    (ids : members.map Member.id = decl.members)
    (nodes : ∀ member ∈ members, tree.node? member.id = some member.node) :
    decl.members.find? (tree.hasCanonicalShape eligible.components) = some eligible.canonical := by
  rw [← (of_eligible found).2, ← ids, List.find?_map]
  refine congrArg (Option.map Member.id) ?_
  clear ids found
  induction members with
  | nil => rfl
  | cons member rest ih =>
      have own : tree.hasCanonicalShape eligible.components member.id =
          isCanonicalMember eligible.components member := by
        unfold SyntaxTree.hasCanonicalShape isCanonicalMember
        rw [nodes member List.mem_cons_self]
        cases member.node <;> rfl
      rw [List.find?_cons, List.find?_cons, Function.comp_apply, own,
        ih fun other listed => nodes other (List.mem_cons_of_mem _ listed)]

end ClassView

namespace SyntaxTree

theorem class?_of_provides {tree : SyntaxTree} {eligible : Eligible} {members : List NodeId}
    {member : NodeId}
    (canonical : members.find? (tree.hasCanonicalShape eligible.components) =
      some eligible.canonical)
    (provided : tree.provides eligible member = true) : tree.class? member = none := by
  unfold class?
  cases found : tree.node? member with
  | none => rfl
  | some node =>
      cases node <;> try rfl
      -- only the canonical constructor could be a class, and it has the shape of one
      have same : member = eligible.canonical := by simpa [provides, found] using provided
      have shaped := List.find?_some canonical
      rw [← same, hasCanonicalShape, found] at shaped
      cases shaped

end SyntaxTree

end JavaRecords
