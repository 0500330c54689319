import JavaRecords.Proofs.Conversion.Changed
import JavaRecords.Proofs.Conversion.Image
import JavaRecords.Proofs.Parse.Owned

set_option autoImplicit false

namespace JavaRecords

namespace TriviaTable

/-- The class has no comments after a record took its place. -/
theorem get?_moveToRecord_self (table input : TriviaTable) {id record : NodeId}
    (partition : Partition) (different : id ≠ record) :
    (table.moveToRecord input id partition record).get? id = none := by
  unfold moveToRecord
  rw [get?_copyFrom_of_ne _ _ _ different, get?_erase_self]

/-- A declaration has no comments after they were moved. -/
theorem get?_move_source (table : TriviaTable) {id target : NodeId} (different : id ≠ target) :
    (table.move id target).get? id = none := by
  unfold move
  cases found : table.get? id with
  | none => exact found
  | some trivia => rw [get?_insert_of_ne _ different, get?_erase_self]

end TriviaTable

namespace Rebuild

variable {input : SyntaxTree} {replacements : List (NodeId × Replacement)}

/-- The record in the place of a class takes over a member. -/
def Retains (replacements : List (NodeId × Replacement)) (holder id : NodeId) : Prop :=
  ∃ replacement, replacements.lookup holder = some replacement ∧
    id ∈ replacement.partition.retained

/-- The record of a settled class takes over a node. -/
def TakenOver (replacements : List (NodeId × Replacement)) (state : Rebuild) (id : NodeId) : Prop :=
  ∃ holder, (state.replaced.lookup holder).isSome ∧ Retains replacements holder id

/-- The comments left under the ids of classes in whose place something else stands: none, or those
of the input if a record took the class over as a member. -/
structure Left (input : SyntaxTree) (replacements : List (NodeId × Replacement))
    (state : Rebuild) : Prop where
  cleared : ∀ id, state.image id ≠ id → ¬ TakenOver replacements state id →
    state.tree.trivia.get? id = none
  restored : ∀ id, state.image id ≠ id → TakenOver replacements state id →
    state.tree.trivia.get? id = input.trivia.get? id

/-- How the comments under the ids of classes change when `new` takes the place of the
class `id`. -/
structure Leaves (input : SyntaxTree) (replacements : List (NodeId × Replacement)) (id : NodeId)
    (before after : TriviaTable) : Prop where
  cleared : after.get? id = none
  restored : ∀ other, other ≠ id → (input.class? other).isSome → Retains replacements id other →
    after.get? other = input.trivia.get? other
  others : ∀ other, other ≠ id → (input.class? other).isSome → ¬ Retains replacements id other →
    after.get? other = before.get? other

/-- Something else stands only in the place of a class. -/
theorem Sound.class_of_image_ne {state : Rebuild} (sound : Sound input replacements state)
    {id : NodeId} (moved : state.image id ≠ id) : (input.class? id).isSome := by
  cases present : input.class? id with
  | none => exact absurd (sound.onlyClasses.image_eq present) moved
  | some decl => rfl

/-- A class is settled before the record of its class takes it over. -/
theorem Sound.not_takenOver (separate : Separate input replacements) {state : Rebuild} {id : NodeId}
    (sound : Sound input replacements state) (isClass : (input.class? id).isSome)
    (fresh : state.replaced.lookup id = none) : ¬ TakenOver replacements state id := by
  rintro ⟨holder, settled, replacement, chosen, kept⟩
  obtain ⟨output, found⟩ := Option.isSome_iff_exists.mp settled
  obtain ⟨decl, present, members, _⟩ := sound.settled holder output found
  have listed := (separate.retained holder replacement decl chosen present id kept).1
  have done := members id listed isClass
  rw [fresh] at done
  cases done

/-- No class is a member of its own. -/
theorem Separate.not_retains_self (separate : Separate input replacements)
    (acyclic : input.Acyclic) {id : NodeId} {decl : ClassDecl}
    (present : input.class? id = some decl) : ¬ Retains replacements id id := by
  rintro ⟨replacement, chosen, kept⟩
  have listed := (separate.retained id replacement decl chosen present id kept).1
  exact acyclic id (.single ⟨decl, present, listed, by rw [present]; rfl⟩)

theorem Left.push (acyclic : input.Acyclic) (separate : Separate input replacements)
    {state later : Rebuild} {id : NodeId} {decl : ClassDecl}
    (sound : Sound input replacements state) (present : input.class? id = some decl)
    (fresh : state.replaced.lookup id = none) (left : Left input replacements state)
    (leaves : Leaves input replacements id state.tree.trivia later.tree.trivia)
    (replaced : later.replaced = (id, state.tree.nextId) :: state.replaced) :
    Left input replacements later := by
  have taken : ∀ other, TakenOver replacements later other ↔
      TakenOver replacements state other ∨ Retains replacements id other := fun other =>
    exists_settled_cons_iff replaced fresh fun holder => Retains replacements holder other
  have notTaken : ¬ TakenOver replacements later id := by
    rw [taken, not_or]
    exact ⟨sound.not_takenOver separate (by rw [present]; rfl) fresh,
      separate.not_retains_self acyclic present⟩
  have earlier : ∀ other, other ≠ id → later.image other ≠ other → state.image other ≠ other := by
    intro other different moved
    rwa [image_of_cons replaced, if_neg different] at moved
  constructor
  · intro other moved stays
    by_cases same : other = id
    · rw [same, leaves.cleared]
    · have before := earlier other same moved
      rw [taken, not_or] at stays
      rw [leaves.others other same (sound.class_of_image_ne before) stays.2]
      exact left.cleared other before stays.1
  · intro other moved isTaken
    have same : other ≠ id := fun equal => notTaken (equal ▸ isTaken)
    have before := earlier other same moved
    have isClass := sound.class_of_image_ne before
    by_cases here : Retains replacements id other
    · exact leaves.restored other same isClass here
    · rw [leaves.others other same isClass here]
      exact left.restored other before (((taken other).mp isTaken).resolve_right here)

theorem leaves_addRecord (separate : Separate input replacements) (tidy : input.Tidy)
    {state : Rebuild} {id : NodeId} {decl : ClassDecl} {replacement : Replacement}
    (sound : Sound input replacements state) (commented : Commented input state)
    (present : input.class? id = some decl) (chosen : replacements.lookup id = some replacement) :
    Leaves input replacements id state.tree.trivia
      (state.addRecord input id replacement).trivia := by
  have old : ∀ other, (input.class? other).isSome → other < input.nodes.size := by
    intro other isClass
    obtain ⟨otherDecl, found⟩ := Option.isSome_iff_exists.mp isClass
    exact SyntaxTree.lt_of_class? found
  have notNew : ∀ other, (input.class? other).isSome → other ≠ state.tree.nextId :=
    fun other isClass => Nat.ne_of_lt (Nat.lt_of_lt_of_le (old other isClass) sound.size)
  have notElided : ∀ other, (input.class? other).isSome →
      other ∉ replacement.partition.elided.map Prod.fst := by
    intro other isClass elided
    have leaf := (separate.elided id decl other present ⟨replacement, chosen, elided⟩).2
    rw [leaf] at isClass
    cases isClass
  have retains : ∀ other, Retains replacements id other ↔
      other ∈ replacement.partition.retained := by
    intro other
    unfold Retains
    simp only [chosen, Option.some.injEq, exists_eq_left']
  constructor
  · exact TriviaTable.get?_moveToRecord_self _ _ _ (notNew id (by rw [present]; rfl))
  · intro other different isClass kept
    rw [addRecord, TriviaTable.get?_moveToRecord_of_ne tidy.filled _ different
      (notNew other isClass)]
    simp only [if_neg (notElided other isClass), if_pos ((retains other).mp kept)]
    -- what the tree under way has for the class is as in the input
    cases own : input.trivia.get? other with
    | some trivia => rfl
    | none =>
        rw [Option.none_or]
        cases found : state.tree.trivia.get? other with
        | none => rfl
        | some trivia => exact (commented.own other trivia (old other isClass) found).symm.trans own
  · intro other different isClass dropped
    rw [addRecord, TriviaTable.get?_moveToRecord_of_ne tidy.filled _ different
      (notNew other isClass)]
    simp only [if_neg (notElided other isClass), if_neg fun kept =>
      dropped ((retains other).mpr kept)]

theorem leaves_addCopy {state : Rebuild} {id : NodeId} {decl : ClassDecl} (members : List NodeId)
    (sound : Sound input replacements state) (present : input.class? id = some decl)
    (stays : replacements.lookup id = none) :
    Leaves input replacements id state.tree.trivia (state.addCopy id decl members).trivia := by
  have notNew : ∀ other, (input.class? other).isSome → other ≠ state.tree.nextId := by
    intro other isClass
    obtain ⟨otherDecl, found⟩ := Option.isSome_iff_exists.mp isClass
    exact Nat.ne_of_lt (Nat.lt_of_lt_of_le (SyntaxTree.lt_of_class? found) sound.size)
  constructor
  · exact TriviaTable.get?_move_source _ (notNew id (by rw [present]; rfl))
  · rintro other _ _ ⟨replacement, chosen, _⟩
    rw [stays] at chosen
    cases chosen
  · intro other different isClass _
    exact TriviaTable.get?_move_of_ne _ different (notNew other isClass)

/-- A class that stays in its place leaves all comments where they are. -/
theorem Left.keep {state : Rebuild} {id : NodeId} (left : Left input replacements state)
    (fresh : state.replaced.lookup id = none) (stays : replacements.lookup id = none) :
    Left input replacements ⟨state.tree, (id, id) :: state.replaced⟩ := by
  have moved : ∀ other, image ⟨state.tree, (id, id) :: state.replaced⟩ other ≠ other →
      state.image other ≠ other := by
    intro other moves
    rw [image_of_cons rfl] at moves
    split at moves
    · rename_i same
      exact absurd same.symm moves
    · exact moves
  have taken : ∀ other, TakenOver replacements ⟨state.tree, (id, id) :: state.replaced⟩ other ↔
      TakenOver replacements state other := by
    intro other
    refine (exists_settled_cons_iff rfl fresh fun holder => Retains replacements holder other).trans
      ⟨fun either => either.resolve_right ?_, Or.inl⟩
    rintro ⟨replacement, chosen, _⟩
    rw [stays] at chosen
    cases chosen
  constructor
  · intro other moves notTaken
    exact left.cleared other (moved other moves) fun before => notTaken ((taken other).mpr before)
  · intro other moves isTaken
    exact left.restored other (moved other moves) ((taken other).mp isTaken)

theorem settle_left (acyclic : input.Acyclic) (separate : Separate input replacements)
    (tidy : input.Tidy) {state : Rebuild} {id : NodeId} {decl : ClassDecl} (members : List NodeId)
    (sound : Sound input replacements state) (commented : Commented input state)
    (present : input.class? id = some decl) (fresh : state.replaced.lookup id = none)
    (left : Left input replacements state) :
    Left input replacements (settle input replacements state id decl members).1 := by
  cases chosen : replacements.lookup id with
  | some replacement =>
      rw [settle_of_replaced input state decl members chosen]
      exact left.push acyclic separate sound present fresh
        (leaves_addRecord separate tidy sound commented present chosen) rfl
  | none =>
      by_cases same : members = decl.members
      · subst same
        rw [settle_of_same input state decl chosen]
        exact left.keep fresh chosen
      · rw [settle_of_changed input state chosen same]
        exact left.push acyclic separate sound present fresh
          (leaves_addCopy members sound present chosen) rfl

/-- What a conversion leaves under the ids of the classes in whose place something else stands. -/
theorem run_left (acyclic : input.Acyclic) (kept : MembersKept input replacements)
    (tidy : input.Tidy) (separate : Separate input replacements) :
    Left input replacements (run input replacements) := by
  refine (run_keeps acyclic kept
    (fun state => Commented input state ∧ Left input replacements state) ?_ ?_ ?_).2
  · rintro state id decl sound present fresh ⟨commented, left⟩
    exact ⟨settle_commented tidy _ sound present commented,
      settle_left acyclic separate tidy _ sound commented present fresh left⟩
  · rintro state unit ⟨commented, left⟩
    exact ⟨⟨commented.tidy.with_unit unit, commented.own, commented.moved⟩,
      ⟨left.cleared, left.restored⟩⟩
  · refine ⟨⟨tidy, fun _ _ _ found => found, fun _ _ _ _ found => by cases found⟩, ?_, ?_⟩
    · exact fun id moved => absurd rfl moved
    · exact fun id moved => absurd rfl moved

end Rebuild

namespace UnitConversion

/-- Something else stands in the place of a class: a record or a copy. -/
def Replaces (conversion : UnitConversion) (tree : SyntaxTree) (id : NodeId) : Prop :=
  (∃ record, conversion.Converts id record) ∨ conversion.Copies tree id

/-- A converted class has a class among its members. -/
def Restores (conversion : UnitConversion) (tree : SyntaxTree) (id : NodeId) : Prop :=
  ∃ holder record, conversion.Converts holder record ∧ tree.Holds holder id

/-- What a conversion does with the comments of a tree: no comment stays under the id of a class
that was replaced, unless the class is a member of a converted class. Then its comments are as they
were, and so bound twice. No other comment is bound to two nodes. -/
structure SettlesComments (conversion : UnitConversion) (tree : SyntaxTree)
    (image : NodeId → NodeId) : Prop where
  cleared : ∀ id, conversion.Replaces tree id → ¬ conversion.Restores tree id →
    conversion.tree.trivia.get? id = none
  restored : ∀ id, conversion.Replaces tree id → conversion.Restores tree id →
    conversion.tree.trivia.get? id = tree.trivia.get? id
  once : ∀ comment node other, conversion.tree.Binds node comment →
    conversion.tree.Binds other comment → node = other ∨
      ∃ id, conversion.Replaces tree id ∧ conversion.Restores tree id ∧
        (node = id ∧ other = image id ∨ node = image id ∧ other = id)

end UnitConversion

namespace ParsedUnit

variable {source : Text} {tree : SyntaxTree} (unit : ParsedUnit source tree)

include unit

/-- What replaces a class is not the class. -/
theorem replaces_iff {id : NodeId} :
    tree.convertUnit.Replaces tree id ↔ tree.rebuild.image id ≠ id := by
  constructor
  · rintro (⟨record, converts⟩ | copies)
    · obtain ⟨replaced, same⟩ := (tree.converts_iff id record).mp converts
      obtain ⟨replacement, chosen⟩ := Option.isSome_iff_exists.mp replaced
      obtain ⟨decl, present⟩ := SyntaxTree.class?_of_replacement chosen
      have new := (SyntaxTree.record_of_converts converts).2.1
      rw [← same]
      exact Nat.ne_of_gt (Nat.lt_of_lt_of_le (SyntaxTree.lt_of_class? present) new)
    · have stays := (tree.not_converts_iff id).mp copies.1
      exact ((unit.copies_iff stays).mp copies).2
  · intro moved
    cases stays : tree.replacements.lookup id with
    | some replacement =>
        exact Or.inl ⟨_, (tree.converts_iff id _).mpr ⟨by rw [stays]; rfl, rfl⟩⟩
    | none =>
        exact Or.inr ((unit.copies_iff stays).mpr ⟨unit.sound.class_of_image_ne moved, moved⟩)

/-- The records take over the member classes of converted classes. -/
theorem restores_iff {id : NodeId} (isClass : (tree.class? id).isSome) :
    tree.convertUnit.Restores tree id ↔
      Rebuild.TakenOver tree.replacements tree.rebuild id := by
  constructor
  · rintro ⟨holder, record, converts, decl, present, listed, _⟩
    obtain ⟨replacement, chosen⟩ :=
      Option.isSome_iff_exists.mp ((tree.converts_iff holder record).mp converts).1
    obtain ⟨eligible, made⟩ := SyntaxTree.exists_eligible chosen present
    refine ⟨holder, (unit.met_of_class present).settled (by rw [present]; rfl), replacement, chosen,
      ?_⟩
    rw [made.retained]
    refine List.mem_filter.mpr ⟨listed, ?_⟩
    cases provided : tree.provides eligible id with
    | false => rfl
    | true =>
        rw [SyntaxTree.class?_of_provides made.canonical provided] at isClass
        cases isClass
  · rintro ⟨holder, _, replacement, chosen, kept⟩
    obtain ⟨decl, present⟩ := SyntaxTree.class?_of_replacement chosen
    have listed := (unit.separate.retained holder replacement decl chosen present id kept).1
    exact ⟨holder, _, (tree.converts_iff holder _).mpr ⟨by rw [chosen]; rfl, rfl⟩,
      decl, present, listed, isClass⟩

/-- A comment of the new tree is a comment of the node in whose place it stands. -/
theorem binds_origin {node : NodeId} {comment : Comment}
    (binds : tree.convertUnit.tree.Binds node comment) :
    ∃ id, tree.Binds id comment ∧ (node = id ∨ node = tree.rebuild.image id) := by
  obtain ⟨trivia, present, listed⟩ := binds
  have commented := unit.commented
  by_cases old : node < tree.nodes.size
  · exact ⟨node, ⟨trivia, commented.own node trivia old present, listed⟩, Or.inl rfl⟩
  · have new := Nat.le_of_not_lt old
    obtain ⟨id, looked⟩ := (Rebuild.run_grown tree tree.replacements).origin node new
      (commented.tidy.known node trivia present)
    exact ⟨id, ⟨trivia, commented.moved id node trivia new looked present, listed⟩,
      Or.inr (Rebuild.image_eq_of_lookup looked).symm⟩

theorem left : Rebuild.Left tree tree.replacements tree.rebuild :=
  Rebuild.run_left unit.acyclic (tree.membersKept tree.targets) unit.tidy unit.separate

theorem settlesComments : tree.convertUnit.SettlesComments tree tree.rebuild.image := by
  have cleared : ∀ id, tree.convertUnit.Replaces tree id → ¬ tree.convertUnit.Restores tree id →
      tree.convertUnit.tree.trivia.get? id = none := by
    intro id replaces stays
    have moved := unit.replaces_iff.mp replaces
    exact unit.left.cleared id moved fun taken =>
      stays ((unit.restores_iff (unit.sound.class_of_image_ne moved)).mpr taken)
  refine ⟨cleared, ?_, ?_⟩
  · intro id replaces restores
    have moved := unit.replaces_iff.mp replaces
    exact unit.left.restored id moved
      ((unit.restores_iff (unit.sound.class_of_image_ne moved)).mp restores)
  · intro comment node other binds bindsOther
    obtain ⟨id, own, place⟩ := unit.binds_origin binds
    obtain ⟨twin, ownTwin, placeOther⟩ := unit.binds_origin bindsOther
    -- both are the same comment of the source, so it is bound to the same declaration there
    obtain rfl := unit.binds_unique own ownTwin
    by_cases same : node = other
    · exact Or.inl same
    · right
      have moved : tree.rebuild.image id ≠ id := by
        intro stays
        rw [stays, or_self] at place placeOther
        exact same (place.trans placeOther.symm)
      have replaces := unit.replaces_iff.mpr moved
      have keeps : tree.convertUnit.tree.Binds id comment := by
        rcases place with rfl | rfl
        · exact binds
        · rcases placeOther with rfl | rfl
          · exact bindsOther
          · exact absurd rfl same
      have restores : tree.convertUnit.Restores tree id := by
        by_contra stays
        obtain ⟨trivia, present, _⟩ := keeps
        rw [cleared id replaces stays] at present
        cases present
      refine ⟨id, replaces, restores, ?_⟩
      rcases place with rfl | rfl <;> rcases placeOther with rfl | rfl
      · exact absurd rfl same
      · exact Or.inl ⟨rfl, rfl⟩
      · exact Or.inr ⟨rfl, rfl⟩
      · exact absurd rfl same

end ParsedUnit

/-- In the tree of a converted source the comments of a class that was replaced are with what takes
its place, and only there, unless the class is a member of a converted class. -/
theorem SyntaxTree.settlesComments_convertUnit {source : Text} {tree : SyntaxTree}
    (parsed : parse source = .ok tree) :
    ∃ image, tree.convertUnit.Places tree image ∧ tree.convertUnit.SettlesComments tree image := by
  obtain ⟨unit⟩ := ParsedUnit.exists_of_parse parsed
  exact ⟨tree.rebuild.image, unit.places, unit.settlesComments⟩

/-- A class and a member class with a comment, both of which become records. -/
def nestedNote : Text :=
  ("class P\x7bprivate final int x;P(int x){this.x=x;}\n/*q*/\n" ++
    "static class Q{private final int y;Q(int y){this.y=y;}}\x7d").toList

theorem SyntaxTree.nestedNote_settlesComments_convertUnit :
    ∃ tree image, parse nestedNote = .ok tree ∧ tree.isEligible 4 = true ∧
      tree.convertUnit.Places tree image ∧ tree.convertUnit.SettlesComments tree image := by
  obtain ⟨tree, parsed, eligible⟩ := exists_ok_of_any
    (show (parse nestedNote).toOption.any (fun tree => tree.isEligible 4) = true by decide +kernel)
  obtain ⟨image, places, settles⟩ := settlesComments_convertUnit parsed
  exact ⟨tree, image, parsed, eligible, places, settles⟩

/-- The member class becomes a record, and its comment is bound to both. -/
theorem SyntaxTree.nestedNote_binds_twice :
    ∃ tree record comment, parse nestedNote = .ok tree ∧ tree.convertUnit.Converts 4 record ∧
      record ≠ 4 ∧ tree.Binds 4 comment ∧ tree.convertUnit.tree.Binds 4 comment ∧
      tree.convertUnit.tree.Binds record comment := by
  let comment : Comment := ⟨.block, ['/', '*', 'q', '*', '/'], ⟨48, 53⟩⟩
  let bound : Trivia := { leading := [comment] }
  obtain ⟨tree, parsed, checked⟩ := exists_ok_of_any
    (show (parse nestedNote).toOption.any (fun tree =>
      tree.unit.types == [5] && tree.isEligible 5 && tree.isEligible 4 &&
        ((tree.class? 5).any fun decl => decide (4 ∈ tree.staticMemberClasses decl)) &&
        tree.trivia.get? 4 == some bound) = true by decide +kernel)
  simp only [Bool.and_eq_true, beq_iff_eq, Option.any_eq_true_iff_get, decide_eq_true_eq]
    at checked
  obtain ⟨⟨⟨⟨types, outerEligible⟩, eligible⟩, isClass, static⟩, own⟩ := checked
  obtain ⟨unit⟩ := ParsedUnit.exists_of_parse parsed
  have listed : 5 ∈ tree.unit.types := by
    rw [types]
    exact List.mem_singleton.mpr rfl
  have held : tree.HoldsStatic 5 4 := ⟨_, Option.some_get isClass |>.symm, static⟩
  have outer := SyntaxTree.converts_of_isEligible listed .refl outerEligible
  have converts := SyntaxTree.converts_of_isEligible listed (.single held) eligible
  have moved := unit.replaces_iff.mp (.inl ⟨_, converts⟩)
  have here : comment ∈ bound.comments := List.mem_singleton.mpr rfl
  have left := unit.settlesComments.restored 4 (.inl ⟨_, converts⟩) ⟨5, _, outer, held.holds⟩
  refine ⟨tree, _, comment, parsed, converts, moved, ⟨bound, own, here⟩,
    ⟨bound, left.trans own, here⟩, ⟨bound, ?_, here⟩⟩
  obtain ⟨_, _, _, isNested⟩ := held.holds
  obtain ⟨decl, present⟩ := Option.isSome_iff_exists.mp isNested
  exact (unit.carried.kept 4 (SyntaxTree.lt_of_class? present)
    (unit.not_gone_of_class present)).trans own

end JavaRecords
