import JavaRecords.Proofs.Conversion.Comments

set_option autoImplicit false

namespace JavaRecords

namespace TriviaTable

theorem get?_foldl_erase (members : List (NodeId × ElideReason)) (table : TriviaTable)
    (other : NodeId) :
    (members.foldl (fun table member => table.erase member.1) table).get? other =
      if other ∈ members.map Prod.fst then none else table.get? other := by
  induction members generalizing table with
  | nil => rfl
  | cons member rest ih =>
      rw [List.foldl_cons, ih, List.map_cons]
      by_cases later : other ∈ rest.map Prod.fst
      · rw [if_pos later, if_pos (List.mem_cons_of_mem _ later)]
      · rw [if_neg later]
        by_cases same : other = member.1
        · rw [same, get?_erase_self, if_pos List.mem_cons_self]
        · rw [get?_erase_of_ne table same, if_neg]
          exact fun listed => (List.mem_cons.mp listed).elim same later

theorem get?_copyFrom_self {table source : TriviaTable} (filled : source.Filled)
    (id target : NodeId) :
    (table.copyFrom source id target).get? target = (source.get? id).or (table.get? target) := by
  unfold copyFrom
  cases found : source.get? id with
  | none => rfl
  | some trivia =>
      dsimp only
      rw [get?_insert_self, if_neg (by rw [filled id trivia found]; exact Bool.false_ne_true)]
      rfl

theorem get?_copyFrom_of_ne (table source : TriviaTable) (id : NodeId) {target other : NodeId}
    (different : other ≠ target) :
    (table.copyFrom source id target).get? other = table.get? other := by
  unfold copyFrom
  split
  · exact get?_insert_of_ne table different _
  · rfl

theorem get?_foldl_copyFrom {source : TriviaTable} (filled : source.Filled) (members : List NodeId)
    (table : TriviaTable) (other : NodeId) :
    (members.foldl (fun table member => table.copyFrom source member member) table).get? other =
      if other ∈ members then (source.get? other).or (table.get? other) else table.get? other := by
  induction members generalizing table with
  | nil => rfl
  | cons member rest ih =>
      rw [List.foldl_cons, ih]
      by_cases same : other = member
      · subst same
        rw [get?_copyFrom_self filled, if_pos List.mem_cons_self]
        split
        · cases source.get? other <;> rfl
        · rfl
      · rw [get?_copyFrom_of_ne table source member same]
        by_cases later : other ∈ rest
        · rw [if_pos later, if_pos (List.mem_cons_of_mem _ later)]
        · rw [if_neg later, if_neg]
          exact fun listed => (List.mem_cons.mp listed).elim same later

/-- The record has the comments of the class. -/
theorem get?_moveToRecord_record {table input : TriviaTable} (filled : input.Filled)
    {id record : NodeId}
    (partition : Partition) (absent : table.get? record = none) (fresh : input.get? record = none) :
    (table.moveToRecord input id partition record).get? record = input.get? id := by
  unfold moveToRecord
  rw [get?_copyFrom_self filled]
  cases left : (TriviaTable.erase _ id).get? record with
  | none => rw [Option.or_none]
  | some trivia =>
      rcases get?_foldl_copyFrom_eq_some (get?_erase_eq_some left).2 with copied | earlier
      · rw [fresh] at copied
        cases copied
      · have before := get?_foldl_erase_eq_some earlier
        rw [absent] at before
        cases before

/-- Elided members lose their comments, and retained ones have those of the input, if they have
any there. -/
theorem get?_moveToRecord_of_ne {table input : TriviaTable} (filled : input.Filled)
    {id record other : NodeId} (partition : Partition) (notClass : other ≠ id)
    (notRecord : other ≠ record) :
    (table.moveToRecord input id partition record).get? other =
      let left := if other ∈ partition.elided.map Prod.fst then none else table.get? other
      if other ∈ partition.retained then (input.get? other).or left else left := by
  unfold moveToRecord
  rw [get?_copyFrom_of_ne _ _ _ notRecord, get?_erase_of_ne _ notClass,
    get?_foldl_copyFrom filled, get?_foldl_erase]

theorem get?_move_self {table : TriviaTable} (filled : table.Filled) {id target : NodeId}
    (absent : table.get? target = none) : (table.move id target).get? target = table.get? id := by
  unfold move
  cases found : table.get? id with
  | none => exact absent
  | some trivia =>
      dsimp only
      rw [get?_insert_self, if_neg (by rw [filled id trivia found]; exact Bool.false_ne_true)]

theorem get?_move_of_ne (table : TriviaTable) {id target other : NodeId} (notSource : other ≠ id)
    (notTarget : other ≠ target) : (table.move id target).get? other = table.get? other := by
  unfold move
  split
  · rw [get?_insert_of_ne _ notTarget, get?_erase_of_ne _ notSource]
  · rfl

end TriviaTable

namespace Rebuild

/-- The record in the place of a class does without a member. -/
def Elides (replacements : List (NodeId × Replacement)) (holder id : NodeId) : Prop :=
  ∃ replacement, replacements.lookup holder = some replacement ∧
    id ∈ replacement.partition.elided.map Prod.fst

/-- The members of a class are nodes. A record keeps members of its class, and does without others,
none of which is a class or a member of another class that becomes a record. -/
structure Separate (input : SyntaxTree) (replacements : List (NodeId × Replacement)) : Prop where
  known : ∀ holder decl, input.class? holder = some decl →
    ∀ member ∈ decl.members, member < input.nodes.size
  alone : ∀ holder other otherDecl member, Elides replacements holder member →
    (replacements.lookup other).isSome → input.class? other = some otherDecl →
    member ∈ otherDecl.members → holder = other
  retained : ∀ holder replacement decl, replacements.lookup holder = some replacement →
    input.class? holder = some decl → ∀ member ∈ replacement.partition.retained,
      member ∈ decl.members ∧ ¬ Elides replacements holder member
  elided : ∀ holder decl member, input.class? holder = some decl →
    Elides replacements holder member → member ∈ decl.members ∧ input.class? member = none

variable {input : SyntaxTree} {replacements : List (NodeId × Replacement)}

/-- The record of a settled class does without a member. -/
def Gone (replacements : List (NodeId × Replacement)) (state : Rebuild) (id : NodeId) : Prop :=
  ∃ holder, (state.replaced.lookup holder).isSome ∧ Elides replacements holder id

/-- The comments of the tree under way: the image of a node has those of the node, but members that
records do without have none. -/
structure Carried (input : SyntaxTree) (replacements : List (NodeId × Replacement))
    (state : Rebuild) : Prop where
  kept : ∀ id, id < input.nodes.size → ¬ Gone replacements state id →
    state.tree.trivia.get? (state.image id) = input.trivia.get? id
  gone : ∀ id, Gone replacements state id → state.tree.trivia.get? id = none

/-- How the table of comments changes when `new` takes the place of the class `id`. -/
structure Moves (input : SyntaxTree) (replacements : List (NodeId × Replacement)) (id : NodeId)
    (decl : ClassDecl) (new : NodeId) (before after : TriviaTable) : Prop where
  moved : after.get? new = input.trivia.get? id
  gone : ∀ other, Elides replacements id other → after.get? other = none
  others : ∀ other, other ≠ id → other ≠ new → ¬ Elides replacements id other →
    after.get? other = before.get? other ∨
      ((replacements.lookup id).isSome ∧ other ∈ decl.members ∧
        after.get? other = input.trivia.get? other)

theorem Sound.class_of_settled {state : Rebuild} (sound : Sound input replacements state)
    {id : NodeId} (settled : (state.replaced.lookup id).isSome) :
    ∃ decl, input.class? id = some decl := by
  obtain ⟨output, found⟩ := Option.isSome_iff_exists.mp settled
  obtain ⟨decl, present, _⟩ := sound.settled id output found
  exact ⟨decl, present⟩

/-- Only a node is its own image, or the image of a class that stays as it is. -/
theorem Sound.eq_of_image_lt {state : Rebuild} (sound : Sound input replacements state)
    {id : NodeId} (old : state.image id < input.nodes.size) : state.image id = id := by
  cases found : state.replaced.lookup id with
  | none => rw [image, found, Option.getD_none]
  | some output =>
      rw [image_eq_of_lookup found] at old ⊢
      exact sound.eq_of_lt found old

theorem Sound.image_lt {state : Rebuild} (sound : Sound input replacements state) {id : NodeId}
    (known : id < input.nodes.size) : state.image id < state.tree.nodes.size := by
  cases found : state.replaced.lookup id with
  | none =>
      rw [image, found, Option.getD_none]
      exact Nat.lt_of_lt_of_le known sound.size
  | some output =>
      rw [image_eq_of_lookup found]
      exact sound.bounded id output found

/-- The image of an id when `new` has taken the place of a class. -/
theorem image_of_cons {state later : Rebuild} {id new : NodeId}
    (replaced : later.replaced = (id, new) :: state.replaced) (other : NodeId) :
    later.image other = if other = id then new else state.image other := by
  unfold image
  rw [replaced]
  by_cases same : other = id
  · subst same
    rw [List.lookup_cons_self, if_pos rfl, Option.getD_some]
  · rw [lookup_cons_of_ne _ same, if_neg same]

theorem exists_settled_cons_iff {state later : Rebuild} {id new : NodeId}
    (replaced : later.replaced = (id, new) :: state.replaced)
    (fresh : state.replaced.lookup id = none) (property : NodeId → Prop) :
    (∃ holder, (later.replaced.lookup holder).isSome ∧ property holder) ↔
      (∃ holder, (state.replaced.lookup holder).isSome ∧ property holder) ∨ property id := by
  constructor
  · rintro ⟨holder, settled, holds⟩
    by_cases same : holder = id
    · exact Or.inr (same ▸ holds)
    · rw [replaced, lookup_cons_of_ne _ same] at settled
      exact Or.inl ⟨holder, settled, holds⟩
  · rintro (⟨holder, settled, holds⟩ | holds)
    · have different : holder ≠ id := by
        rintro rfl
        rw [fresh] at settled
        cases settled
      exact ⟨holder, by rwa [replaced, lookup_cons_of_ne _ different], holds⟩
    · exact ⟨id, by rw [replaced, List.lookup_cons_self]; rfl, holds⟩

/-- Settling a class adds the members that its record does without. -/
theorem gone_of_cons_iff {state later : Rebuild} {id new : NodeId}
    (replaced : later.replaced = (id, new) :: state.replaced)
    (fresh : state.replaced.lookup id = none) (other : NodeId) :
    Gone replacements later other ↔
      Gone replacements state other ∨ Elides replacements id other :=
  exists_settled_cons_iff replaced fresh fun holder => Elides replacements holder other

/-- What a record does without is not a class. -/
theorem Separate.ne_of_elides (separate : Separate input replacements) {id holder member : NodeId}
    {decl holderDecl : ClassDecl} (present : input.class? id = some decl)
    (holderPresent : input.class? holder = some holderDecl)
    (elided : Elides replacements holder member) : member ≠ id := by
  rintro rfl
  have leaf := (separate.elided holder holderDecl member holderPresent elided).2
  rw [present] at leaf
  cases leaf

/-- A new node carries the comments of its class. -/
theorem Carried.push (separate : Separate input replacements) {state later : Rebuild} {id : NodeId}
    {decl : ClassDecl} (sound : Sound input replacements state)
    (present : input.class? id = some decl) (fresh : state.replaced.lookup id = none)
    (carried : Carried input replacements state)
    (moves : Moves input replacements id decl state.tree.nextId state.tree.trivia
      later.tree.trivia)
    (replaced : later.replaced = (id, state.tree.nextId) :: state.replaced) :
    Carried input replacements later where
  kept other known stays := by
    rw [gone_of_cons_iff replaced fresh, not_or] at stays
    rw [image_of_cons replaced]
    by_cases same : other = id
    · rw [if_pos same, moves.moved, same]
    · rw [if_neg same]
      -- an image that is a node of the input is the node itself
      have back : state.image other < input.nodes.size → state.image other = other :=
        sound.eq_of_image_lt
      have notClass : state.image other ≠ id := by
        intro equal
        have itself := back (by rw [equal]; exact SyntaxTree.lt_of_class? present)
        exact same (itself.symm.trans equal)
      have notNew : state.image other ≠ state.tree.nextId := Nat.ne_of_lt (sound.image_lt known)
      have keeps : ¬ Elides replacements id (state.image other) := by
        intro elided
        have member := (separate.elided id decl _ present elided).1
        rw [back (separate.known id decl present _ member)] at elided
        exact stays.2 elided
      rcases moves.others _ notClass notNew keeps with before | ⟨_, member, copied⟩
      · rw [before, carried.kept other known stays.1]
      · rw [copied, back (separate.known id decl present _ member)]
  gone other gone := by
    by_cases here : Elides replacements id other
    · exact moves.gone other here
    · have earlier := ((gone_of_cons_iff replaced fresh other).mp gone).resolve_right here
      have before := carried.gone other earlier
      obtain ⟨holder, settled, elided⟩ := earlier
      obtain ⟨holderDecl, holderPresent⟩ := sound.class_of_settled settled
      have member := (separate.elided holder holderDecl other holderPresent elided).1
      have known := separate.known holder holderDecl holderPresent other member
      have notNew : other ≠ state.tree.nextId :=
        Nat.ne_of_lt (Nat.lt_of_lt_of_le known sound.size)
      have different := separate.ne_of_elides present holderPresent elided
      rcases moves.others other different notNew here with
        same | ⟨chosen, shared, _⟩
      · rw [same, before]
      · have alone := separate.alone holder id decl other elided chosen present shared
        rw [alone, fresh] at settled
        cases settled

theorem moves_addRecord (separate : Separate input replacements) (tidy : input.Tidy)
    {state : Rebuild} {id : NodeId} {decl : ClassDecl} {replacement : Replacement}
    (sound : Sound input replacements state) (tidyState : state.tree.Tidy)
    (present : input.class? id = some decl) (chosen : replacements.lookup id = some replacement) :
    Moves input replacements id decl state.tree.nextId state.tree.trivia
      (state.addRecord input id replacement).trivia := by
  have elides : ∀ other, Elides replacements id other ↔
      other ∈ replacement.partition.elided.map Prod.fst := by
    intro other
    unfold Elides
    simp only [chosen, Option.some.injEq, exists_eq_left']
  constructor
  · exact TriviaTable.get?_moveToRecord_record tidy.filled _
      (tidyState.get?_eq_none (Nat.le_refl _)) (tidy.get?_eq_none sound.size)
  · intro other elided
    have member := (separate.elided id decl other present elided).1
    have notClass := separate.ne_of_elides present present elided
    have notNew : other ≠ state.tree.nextId :=
      Nat.ne_of_lt (Nat.lt_of_lt_of_le (separate.known id decl present other member) sound.size)
    have dropped : other ∉ replacement.partition.retained := fun kept =>
      (separate.retained id replacement decl chosen present other kept).2 elided
    rw [addRecord, TriviaTable.get?_moveToRecord_of_ne tidy.filled _ notClass notNew]
    simp only [(elides other).mp elided, dropped, ↓reduceIte]
  · intro other notClass notNew stays
    have staying : other ∉ replacement.partition.elided.map Prod.fst :=
      fun elided => stays ((elides other).mpr elided)
    rw [addRecord, TriviaTable.get?_moveToRecord_of_ne tidy.filled _ notClass notNew]
    simp only [if_neg staying]
    by_cases kept : other ∈ replacement.partition.retained
    · rw [if_pos kept]
      cases found : input.trivia.get? other with
      | none =>
          left
          rw [Option.none_or]
      | some trivia =>
          exact Or.inr ⟨by rw [chosen]; rfl,
            (separate.retained id replacement decl chosen present other kept).1, rfl⟩
    · left
      rw [if_neg kept]

theorem moves_addCopy (separate : Separate input replacements) {state : Rebuild} {id : NodeId}
    {decl : ClassDecl} (members : List NodeId) (tidyState : state.tree.Tidy)
    (carried : Carried input replacements state) (present : input.class? id = some decl)
    (fresh : state.replaced.lookup id = none) (sound : Sound input replacements state)
    (kept : replacements.lookup id = none) :
    Moves input replacements id decl state.tree.nextId state.tree.trivia
      (state.addCopy id decl members).trivia := by
  have stays : ¬ Gone replacements state id := by
    rintro ⟨holder, settled, elided⟩
    obtain ⟨holderDecl, holderPresent⟩ := sound.class_of_settled settled
    exact separate.ne_of_elides present holderPresent elided rfl
  have own := carried.kept id (SyntaxTree.lt_of_class? present) stays
  rw [image, fresh, Option.getD_none] at own
  constructor
  · rw [← own]
    exact TriviaTable.get?_move_self tidyState.filled (tidyState.get?_eq_none (Nat.le_refl _))
  · rintro other ⟨replacement, chosen, _⟩
    rw [kept] at chosen
    cases chosen
  · intro other notClass notNew _
    exact Or.inl (TriviaTable.get?_move_of_ne _ notClass notNew)

/-- A class that stays as it is leaves all comments where they are. -/
theorem Carried.keep {state : Rebuild} {id : NodeId} (carried : Carried input replacements state)
    (fresh : state.replaced.lookup id = none) (kept : replacements.lookup id = none) :
    Carried input replacements ⟨state.tree, (id, id) :: state.replaced⟩ where
  kept other known stays := by
    rw [gone_of_cons_iff rfl fresh, not_or] at stays
    rw [← carried.kept other known stays.1, image_of_cons rfl]
    split
    · rename_i same
      rw [same, image, fresh, Option.getD_none]
    · rfl
  gone other gone := by
    rcases (gone_of_cons_iff rfl fresh other).mp gone with earlier | ⟨replacement, chosen, _⟩
    · exact carried.gone other earlier
    · rw [kept] at chosen
      cases chosen

theorem settle_carried (separate : Separate input replacements) (tidy : input.Tidy)
    {state : Rebuild} {id : NodeId} {decl : ClassDecl} (members : List NodeId)
    (sound : Sound input replacements state) (tidyState : state.tree.Tidy)
    (present : input.class? id = some decl) (fresh : state.replaced.lookup id = none)
    (carried : Carried input replacements state) :
    Carried input replacements (settle input replacements state id decl members).1 := by
  cases chosen : replacements.lookup id with
  | some replacement =>
      rw [settle_of_replaced input state decl members chosen]
      exact carried.push separate sound present fresh
        (moves_addRecord separate tidy sound tidyState present chosen) rfl
  | none =>
      by_cases same : members = decl.members
      · subst same
        rw [settle_of_same input state decl chosen]
        exact carried.keep fresh chosen
      · rw [settle_of_changed input state chosen same]
        exact carried.push separate sound present fresh
          (moves_addCopy separate members tidyState carried present fresh sound chosen) rfl

/-- What a conversion does with comments. -/
theorem run_carried (acyclic : input.Acyclic) (kept : MembersKept input replacements)
    (tidy : input.Tidy) (separate : Separate input replacements) :
    Carried input replacements (run input replacements) := by
  refine (run_keeps acyclic kept
    (fun state => Commented input state ∧ Carried input replacements state) ?_ ?_ ?_).2
  · rintro state id decl sound present fresh ⟨commented, carried⟩
    exact ⟨settle_commented tidy _ sound present commented,
      settle_carried separate tidy _ sound commented.tidy present fresh carried⟩
  · rintro state unit ⟨commented, carried⟩
    exact ⟨⟨commented.tidy.with_unit unit, commented.own, commented.moved⟩,
      ⟨carried.kept, carried.gone⟩⟩
  · refine ⟨⟨tidy, fun _ _ _ found => found, fun _ _ _ _ found => by cases found⟩, ?_, ?_⟩
    · exact fun _ _ _ => rfl
    · rintro id ⟨holder, settled, _⟩
      cases settled

end Rebuild

end JavaRecords
