import JavaRecords.Proofs.Conversion.Targets
import Mathlib

set_option autoImplicit false

namespace JavaRecords

namespace SyntaxTree

/-- The types of the unit and the members of classes are nodes of the tree. -/
structure Known (tree : SyntaxTree) : Prop where
  types : ∀ id ∈ tree.unit.types, (tree.node? id).isSome
  members : ∀ id decl, tree.class? id = some decl →
    ∀ member ∈ decl.members, (tree.node? member).isSome

/-- Where the classes that a class holds stand before it, so do those that these hold in turn. -/
theorem lt_of_transGen_holds {tree : SyntaxTree}
    (before : ∀ parent child, tree.Holds parent child → child < parent) {first last : NodeId}
    (path : Relation.TransGen tree.Holds first last) : last < first := by
  induction path with
  | single held => exact before _ _ held
  | tail _ held ih => exact Nat.lt_trans (before _ _ held) ih

/-- A tree in which the classes that a class holds stand before it is acyclic. -/
theorem acyclic_of_lt {tree : SyntaxTree}
    (before : ∀ parent child, tree.Holds parent child → child < parent) : tree.Acyclic :=
  fun id cycle => Nat.lt_irrefl id (lt_of_transGen_holds before cycle)

theorem lt_of_node?_isSome {tree : SyntaxTree} {id : NodeId} (known : (tree.node? id).isSome) :
    id < tree.nodes.size := by
  obtain ⟨node, found⟩ := Option.isSome_iff_exists.mp known
  exact (Array.getElem?_eq_some_iff.mp found).1

/-- A class is replaced exactly if it is eligible. -/
theorem judge_replaces_iff (tree : SyntaxTree) (id : NodeId) :
    (∃ replacement, (tree.judge id).verdict = .replace replacement) ↔
      tree.isEligible id = true := by
  rw [tree.isEligible_iff_view]
  constructor
  · rintro ⟨replacement, replaced⟩
    obtain ⟨view, eligible, found, judged, _⟩ := (tree.judge_eq_replace_iff _ _).mp replaced
    obtain ⟨decl, members, present, read, rfl⟩ := (tree.resolveClass_eq_some_iff _ _).mp found
    exact ⟨decl, members, present, read, by rw [judged]; rfl⟩
  · rintro ⟨decl, members, present, read, judged⟩
    cases classified : ClassView.classify ⟨id, decl, members⟩ with
    | ineligible reason =>
        rw [classified] at judged
        cases judged
    | eligible eligible =>
        exact ⟨_, (tree.judge_eq_replace_iff _ _).mpr ⟨_, eligible,
          (tree.resolveClass_eq_some_iff _ _).mpr ⟨decl, members, present, read, rfl⟩,
          classified, rfl⟩⟩

/-- The record of a replaced class keeps members of the class. -/
theorem membersKept (tree : SyntaxTree) (ids : List NodeId) :
    Rebuild.MembersKept tree (replacementsOf (ids.map tree.judge)) := by
  intro id replacement decl chosen present member listed
  obtain ⟨_, replaced⟩ := (lookup_replacementsOf tree ids id replacement).mp chosen
  obtain ⟨view, eligible, found, _, rfl⟩ := (tree.judge_eq_replace_iff _ _).mp replaced
  obtain ⟨same, members, presentSame, read, rfl⟩ := (tree.resolveClass_eq_some_iff _ _).mp found
  rw [present] at presentSame
  cases presentSame
  obtain ⟨ids, _⟩ := resolveMembers_sound read
  obtain ⟨entry, kept, rfl⟩ := List.mem_map.mp listed
  obtain ⟨owner, listedOwner, rfl⟩ := List.mem_map.mp (List.mem_filter.mp kept).1
  rw [← ids]
  exact List.mem_map_of_mem listedOwner

end SyntaxTree

namespace Rebuild

variable {input : SyntaxTree} {replacements : List (NodeId × Replacement)} {state : Rebuild}

/-- A node that a conversion met: it exists, and if it is a class it is settled. -/
structure Met (input : SyntaxTree) (state : Rebuild) (id : NodeId) : Prop where
  known : (input.node? id).isSome
  settled : (input.class? id).isSome → (state.replaced.lookup id).isSome

theorem Sound.node?_image_of_not_class (sound : Sound input replacements state) {id : NodeId}
    (known : (input.node? id).isSome) (absent : input.class? id = none) :
    state.tree.node? (state.image id) = input.node? id := by
  rw [sound.onlyClasses.image_eq absent]
  exact sound.nodes id (SyntaxTree.lt_of_node?_isSome known)

/-- What stands in the place of a class. -/
theorem Sound.node?_image_of_class (sound : Sound input replacements state) {id : NodeId}
    (met : Met input state id) {decl : ClassDecl} (present : input.class? id = some decl) :
    AllSettled input state decl.members ∧
      match replacements.lookup id with
      | some replacement => state.tree.node? (state.image id) = some (.record
          { replacement.record with members := replacement.record.members.map state.image })
      | none => state.tree.node? (state.image id) = some (.classDecl
          { decl with members := decl.members.map state.image }) := by
  obtain ⟨output, found⟩ :=
    Option.isSome_iff_exists.mp (met.settled (by rw [present]; rfl))
  obtain ⟨same, presentSame, members, place⟩ := sound.settled id output found
  rw [present] at presentSame
  cases presentSame
  rw [image_eq_of_lookup found]
  refine ⟨members, ?_⟩
  cases chosen : replacements.lookup id with
  | some replacement =>
      rw [chosen] at place
      exact place.2
  | none =>
      rw [chosen] at place
      dsimp only at place ⊢
      split at place
      · rename_i unchanged
        rw [place, sound.nodes id (SyntaxTree.lt_of_class? present), unchanged]
        exact SyntaxTree.node?_of_class? present
      · exact place.2

theorem Sound.class?_image (sound : Sound input replacements state) {id : NodeId}
    (met : Met input state id) {decl : ClassDecl}
    (image : state.tree.class? (state.image id) = some decl) :
    ∃ origin, input.class? id = some origin ∧ replacements.lookup id = none ∧
      AllSettled input state origin.members ∧
      decl = { origin with members := origin.members.map state.image } := by
  cases present : input.class? id with
  | none =>
      have same := sound.node?_image_of_not_class met.known present
      have stored := SyntaxTree.node?_of_class? image
      rw [same] at stored
      rw [SyntaxTree.class?_of_node? stored] at present
      cases present
  | some origin =>
      obtain ⟨members, place⟩ := sound.node?_image_of_class met present
      have stored := SyntaxTree.node?_of_class? image
      cases chosen : replacements.lookup id with
      | some replacement =>
          rw [chosen] at place
          dsimp only at place
          rw [place] at stored
          cases stored
      | none =>
          rw [chosen] at place
          dsimp only at place
          rw [place] at stored
          cases stored
          exact ⟨origin, rfl, rfl, members, rfl⟩

/-- What stands in the place of a node can stand for it in the body of a class. -/
theorem Sound.nodesAlike_image (sound : Sound input replacements state) {id : NodeId}
    (met : Met input state id) : SyntaxTree.NodesAlike input state.tree id (state.image id) := by
  obtain ⟨node, found⟩ := Option.isSome_iff_exists.mp met.known
  cases present : input.class? id with
  | none =>
      have same := sound.node?_image_of_not_class met.known present
      exact ⟨node, node, found, same.trans found, rfl, rfl⟩
  | some decl =>
      have place := (sound.node?_image_of_class met present).2
      have stored := SyntaxTree.node?_of_class? present
      cases chosen : replacements.lookup id with
      | some replacement =>
          rw [chosen] at place
          exact ⟨_, _, stored, place, rfl, rfl⟩
      | none =>
          rw [chosen] at place
          exact ⟨_, _, stored, place, rfl, rfl⟩

/-- A class that stays is as eligible as it was. -/
theorem Sound.isEligible_of_image (sound : Sound input replacements state) (known : input.Known)
    {id : NodeId} (met : Met input state id)
    (eligible : state.tree.isEligible (state.image id) = true) :
    replacements.lookup id = none ∧ input.isEligible id = true := by
  obtain ⟨decl, _, image, _⟩ := (SyntaxTree.isEligible_iff_view _ _).mp eligible
  obtain ⟨origin, present, stays, members, rfl⟩ := sound.class?_image met image
  refine ⟨stays, SyntaxTree.isEligible_of_alike present image rfl rfl ?_ ?_ eligible⟩
  · apply List.forall₂_map_right_iff.mpr
    apply List.forall₂_same.mpr
    intro member listed
    exact sound.nodesAlike_image
      ⟨known.members id origin present member listed, members member listed⟩
  · intro distinct
    exact List.Nodup.of_map _ distinct

/-- Static member classes of the new tree lead to images of what they led to before. -/
theorem Sound.reached_image (sound : Sound input replacements state) (known : input.Known)
    {start : NodeId} (met : Met input state start) {target : NodeId}
    (path : Relation.ReflTransGen state.tree.HoldsStatic (state.image start) target) :
    ∃ id, target = state.image id ∧ Met input state id ∧
      Relation.ReflTransGen input.HoldsStatic start id := by
  induction path with
  | refl => exact ⟨start, rfl, met, .refl⟩
  | tail _ held ih =>
      obtain ⟨parent, rfl, metParent, path⟩ := ih
      obtain ⟨decl, image, listed⟩ := held
      obtain ⟨origin, present, _, members, rfl⟩ := sound.class?_image metParent image
      obtain ⟨among, static⟩ := List.mem_filter.mp listed
      obtain ⟨child, listedChild, rfl⟩ := List.mem_map.mp among
      have metChild : Met input state child :=
        ⟨known.members parent origin present child listedChild, members child listedChild⟩
      have imageIsClass := SyntaxTree.class?_isSome_of_holdsStatic ⟨_, image, listed⟩
      obtain ⟨nested, imageChild⟩ := Option.isSome_iff_exists.mp imageIsClass
      rw [imageChild] at static
      obtain ⟨originChild, presentChild, _, _, rfl⟩ := sound.class?_image metChild imageChild
      refine ⟨child, rfl, metChild,
        path.tail ⟨origin, present, List.mem_filter.mpr ⟨listedChild, ?_⟩⟩⟩
      rw [presentChild]
      exact static

/-- A state in which every class met so far stays, in the tree it started with. -/
def Idle (input : SyntaxTree) (state : Rebuild) : Prop :=
  state.tree = input ∧ ∀ id output, state.replaced.lookup id = some output → output = id

theorem idle_cons {state : Rebuild} (idle : Idle input state) (id : NodeId) :
    Idle input ⟨state.tree, (id, id) :: state.replaced⟩ := by
  refine ⟨idle.1, ?_⟩
  intro other output found
  by_cases same : other = id
  · subst same
    simp only [List.lookup_cons_self, Option.some.injEq] at found
    exact found.symm
  · rw [lookup_cons_of_ne _ same] at found
    exact idle.2 other output found

/-- Where nothing is replaced, settling changes nothing. -/
theorem node_nodes_idle (input : SyntaxTree) :
    (∀ visiting state id, Idle input state →
      Idle input (node input [] visiting state id).1 ∧ (node input [] visiting state id).2 = id) ∧
    (∀ visiting state ids, Idle input state →
      Idle input (nodes input [] visiting state ids).1 ∧
        (nodes input [] visiting state ids).2 = ids) := by
  apply node.mutual_induct
  · intro visiting state id done found idle
    rw [node, found]
    exact ⟨idle, idle.2 id done found⟩
  · intro visiting state id fresh absent idle
    rw [node_of_not_class fresh absent]
    exact ⟨idle, rfl⟩
  · intro visiting state id fresh decl present met idle
    rw [node_of_visiting fresh met]
    exact ⟨idle, rfl⟩
  · intro visiting state id fresh decl present unmet inner members settled ih idle
    rw [node_of_class fresh present unmet]
    rw [settled] at ih ⊢
    obtain ⟨idleInner, same⟩ := ih idle
    dsimp only at idleInner same ⊢
    subst same
    rw [settle_of_same input inner decl rfl]
    exact ⟨idle_cons idleInner id, rfl⟩
  · intro visiting state idle
    rw [nodes]
    exact ⟨idle, rfl⟩
  · intro visiting state id rest middle first settledFirst last others settledRest ihFirst
      ihRest idle
    rw [nodes, settledFirst]
    dsimp only
    rw [settledRest]
    rw [settledFirst] at ihFirst
    rw [settledRest] at ihRest
    obtain ⟨idleFirst, sameFirst⟩ := ihFirst idle
    obtain ⟨idleRest, sameRest⟩ := ihRest idleFirst
    exact ⟨idleRest, congrArg₂ List.cons sameFirst sameRest⟩

theorem run_nil (input : SyntaxTree) : (run input []).tree = input := by
  have idle : Idle input ⟨input, []⟩ := ⟨rfl, fun _ _ found => by cases found⟩
  obtain ⟨⟨tree, _⟩, types⟩ := (node_nodes_idle input).2 [] ⟨input, []⟩ input.unit.types idle
  simp only [run, List.map_nil, List.mergeSort_nil, nodes, tree, types]

end Rebuild

namespace SyntaxTree

/-- No class that the second conversion considers is eligible. -/
theorem not_isEligible_of_mem_targets {tree : SyntaxTree} (known : tree.Known)
    (acyclic : tree.Acyclic) {target : NodeId} (listed : target ∈ tree.convertUnit.tree.targets) :
    ¬ tree.convertUnit.tree.isEligible target = true := by
  intro eligible
  let replacements := replacementsOf (tree.targets.map tree.judge)
  obtain ⟨sound, unit, types, _⟩ :=
    Rebuild.run_sound acyclic (tree.membersKept tree.targets)
  obtain ⟨⟨start, listedStart, path⟩, _⟩ := (mem_targets_iff _ _).mp listed
  change start ∈ (Rebuild.run tree replacements).tree.unit.types at listedStart
  rw [unit] at listedStart
  obtain ⟨origin, listedOrigin, rfl⟩ := List.mem_map.mp listedStart
  obtain ⟨id, rfl, met, path⟩ := sound.reached_image known
    ⟨known.types origin listedOrigin, types origin listedOrigin⟩ path
  obtain ⟨stays, eligibleBefore⟩ := sound.isEligible_of_image known met eligible
  -- the class was a target of the first conversion and eligible, so it was replaced
  obtain ⟨decl, _, present, _⟩ := (tree.isEligible_iff_view id).mp eligibleBefore
  have listedBefore : id ∈ tree.targets :=
    (mem_targets_iff _ _).mpr ⟨⟨origin, listedOrigin, path⟩, Or.inl (by rw [present]; rfl)⟩
  obtain ⟨replacement, replaced⟩ := (tree.judge_replaces_iff id).mpr eligibleBefore
  rw [(lookup_replacementsOf tree tree.targets id replacement).mpr
    ⟨listedBefore, replaced⟩] at stays
  cases stays

/-- A conversion in which no class is eligible changes nothing. -/
theorem convert_of_not_isEligible {tree : SyntaxTree} {ids : List NodeId}
    (ineligible : ∀ id ∈ ids, ¬ tree.isEligible id = true) :
    (∀ report ∈ (tree.convert ids).reports, report.outcome.isConverted = false) ∧
      (tree.convert ids).tree = tree := by
  have kept : ∀ entry ∈ ids.map tree.judge, ∀ replacement,
      entry.verdict ≠ .replace replacement := by
    intro entry listed replacement replaced
    obtain ⟨id, member, rfl⟩ := List.mem_map.mp listed
    exact ineligible id member ((tree.judge_replaces_iff id).mp ⟨replacement, replaced⟩)
  constructor
  · intro report listed
    obtain ⟨entry, member, reported⟩ := List.mem_filterMap.mp listed
    obtain ⟨outcome, decided, rfl⟩ := Option.map_eq_some_iff.mp reported
    unfold Rebuild.outcome? at decided
    split at decided
    · cases decided
      rfl
    · cases decided
      rfl
    · rename_i replacement replaced
      exact absurd replaced (kept entry member replacement)
  · have none : replacementsOf (ids.map tree.judge) = [] := by
      apply List.filterMap_eq_nil_iff.mpr
      intro entry member
      have stays := kept entry member
      split
      · rename_i replacement replaced
        exact absurd replaced (stays replacement)
      · rfl
    simp only [convert, none]
    exact Rebuild.run_nil tree

/-- Converting a converted tree replaces no class and changes nothing. -/
theorem convertUnit_convertUnit (tree : SyntaxTree) (known : tree.Known) (acyclic : tree.Acyclic) :
    (∀ report ∈ tree.convertUnit.tree.convertUnit.reports, report.outcome.isConverted = false) ∧
      tree.convertUnit.tree.convertUnit.tree = tree.convertUnit.tree :=
  convert_of_not_isEligible fun _ listed => not_isEligible_of_mem_targets known acyclic listed

/-- A static class that becomes a record, listed by the unit and twice by a class that cannot be
looked up. -/
def sharedPoint : SyntaxTree where
  source := []
  nodes := #[
    .field ⟨"x".toList, "int".toList, ⟨[.priv, .final], []⟩, 0, none, 1, .blank⟩,
    .constructor ⟨"Point".toList, {}, none, [⟨"x".toList, "int".toList, {}, false⟩],
      ⟨"{}".toList, [.assign ⟨"this.x".toList, .thisField⟩ .assign
        (some ⟨"x".toList, .name⟩) "this.x = x;".toList]⟩, .blank⟩,
    .classDecl ⟨"Point".toList, none, ⟨[.static], []⟩, [], none, none, none, none, [0, 1], .blank⟩,
    .classDecl ⟨"Shape".toList, none, {}, [], none, none, none, none, [2, 2], .blank⟩]
  unit := { types := [3, 2] }

theorem sharedPoint_known : sharedPoint.Known where
  types := by decide
  members id decl present := by
    have bound := lt_of_class? present
    change id < 4 at bound
    match id, bound with
    | 0, _ | 1, _ => cases present
    | 2, _ | 3, _ =>
        cases present
        decide

theorem sharedPoint_acyclic : sharedPoint.Acyclic := by
  apply acyclic_of_lt
  rintro parent child ⟨decl, present, listed, -⟩
  have bound := lt_of_class? present
  change parent < 4 at bound
  match parent, bound with
  | 0, _ | 1, _ => cases present
  | 2, _ | 3, _ =>
      cases present
      revert child
      decide

theorem sharedPoint_convertUnit_convertUnit :
    sharedPoint.convertUnit.converted = 1 ∧
      (∀ report ∈ sharedPoint.convertUnit.tree.convertUnit.reports,
        report.outcome.isConverted = false) ∧
      sharedPoint.convertUnit.tree.convertUnit.tree = sharedPoint.convertUnit.tree :=
  ⟨by cbv, convertUnit_convertUnit sharedPoint sharedPoint_known sharedPoint_acyclic⟩

end SyntaxTree

end JavaRecords
