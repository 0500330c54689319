import JavaRecords.Proofs.Conversion.Changed

set_option autoImplicit false

namespace JavaRecords

namespace SyntaxTree

def withLoneRecord (tree : SyntaxTree) (id : NodeId) (replacement : Replacement) : SyntaxTree :=
  { (Rebuild.mk tree []).addRecord tree id replacement with
    unit := { tree.unit with types := [tree.nextId] } }

variable {tree : SyntaxTree} {id : NodeId} {decl : ClassDecl}

theorem targets_lone (types : tree.unit.types = [id]) (present : tree.class? id = some decl)
    (leaf : ∀ member ∈ decl.members, tree.class? member = none) : tree.targets = [id] := by
  have noStatic : tree.staticMemberClasses decl = [] := by
    refine List.filter_eq_nil_iff.mpr fun member listed => ?_
    rw [leaf member listed]
    exact Bool.false_ne_true
  have known := node?_of_class? present
  rw [targets, types, targetsFrom, dif_neg (by simp), known]
  dsimp only
  split
  · rename_i absent
    rw [present] at absent
    cases absent
  · rename_i found
    rw [present] at found
    cases found
    rw [noStatic, List.nil_append, targetsFrom]

theorem replacements_lone {replacement : Replacement} (targets : tree.targets = [id])
    (judged : (tree.judge id).verdict = .replace replacement) :
    tree.replacements = [(id, replacement)] := by
  have same : (tree.judge id).id = id := tree.judge_id id
  rw [replacements, targets, List.map_singleton, replacementsOf, List.filterMap_cons, judged, same]
  rfl

end SyntaxTree

namespace Rebuild

variable {input : SyntaxTree} {replacements : List (NodeId × Replacement)}

/-- Members that are no classes stay as they are. -/
theorem nodes_of_leaves (visiting : List NodeId) {members : List NodeId}
    (leaf : ∀ member ∈ members, input.class? member = none) :
    nodes input replacements visiting ⟨input, []⟩ members = (⟨input, []⟩, members) := by
  induction members with
  | nil => rw [nodes]
  | cons member rest ih =>
      have first : node input replacements visiting ⟨input, []⟩ member = (⟨input, []⟩, member) :=
        node_of_not_class rfl (leaf member List.mem_cons_self)
      rw [nodes, first]
      dsimp only
      rw [ih fun other listed => leaf other (List.mem_cons_of_mem _ listed)]

end Rebuild

namespace SyntaxTree

variable {tree : SyntaxTree} {id : NodeId} {decl : ClassDecl}

/-- The conversion of a unit whose one type is a class without member classes that becomes a
record. -/
theorem convertUnit_lone {replacement : Replacement} (types : tree.unit.types = [id])
    (present : tree.class? id = some decl)
    (leaf : ∀ member ∈ decl.members, tree.class? member = none)
    (judged : (tree.judge id).verdict = .replace replacement) :
    tree.convertUnit.tree = tree.withLoneRecord id replacement ∧
      tree.convertUnit.isChanged = true := by
  have chosen := replacements_lone (targets_lone types present leaf) judged
  have settles : Rebuild.node tree [(id, replacement)] [] ⟨tree, []⟩ id =
      (⟨(Rebuild.mk tree []).addRecord tree id replacement, [(id, tree.nextId)]⟩, tree.nextId) := by
    rw [Rebuild.node_of_class rfl present (by simp), Rebuild.nodes_of_leaves _ leaf,
      Rebuild.settle_of_replaced _ _ _ _ List.lookup_cons_self]
  constructor
  · rw [convertUnit_tree, rebuild, chosen, Rebuild.run, types, Rebuild.nodes, settles]
    dsimp only
    rw [Rebuild.nodes]
    simp only [List.map_cons, List.map_nil, List.mergeSort_singleton]
    rw [Rebuild.nodes, Rebuild.node, List.lookup_cons_self]
    dsimp only
    rw [Rebuild.nodes]
    rfl
  · refine tree.isChanged_convertUnit_iff.mpr ⟨id, _, (tree.converts_iff id _).mpr ⟨?_, rfl⟩⟩
    rw [chosen, List.lookup_cons_self]
    rfl

end SyntaxTree

/-- The conversion of a source whose one type is a class without member classes that becomes a
record. -/
theorem convertSource_lone {source : Text} {tree : SyntaxTree} {id : NodeId} {decl : ClassDecl}
    {replacement : Replacement} (parsed : parse source = .ok tree)
    (types : tree.unit.types = [id]) (present : tree.class? id = some decl)
    (leaf : ∀ member ∈ decl.members, tree.class? member = none)
    (judged : (tree.judge id).verdict = .replace replacement) :
    convertSource source =
      .ok ⟨(tree.withLoneRecord id replacement).print, tree.convertUnit.reports⟩ := by
  obtain ⟨converted, changed⟩ := SyntaxTree.convertUnit_lone types present leaf judged
  exact convertSource_eq_ok_iff.mpr ⟨tree, parsed, by rw [if_pos changed, converted]⟩

/-- The converted text of a source whose one type is a class without member classes that becomes a
record. -/
def loneOutput? (source : Text) : Option Text :=
  match parse source with
  | .error _ => none
  | .ok tree =>
      match tree.unit.types with
      | [id] =>
          match tree.class? id, (tree.judge id).verdict with
          | some decl, .replace replacement =>
              if decl.members.all fun member => (tree.class? member).isNone then
                some (tree.withLoneRecord id replacement).print
              else none
          | _, _ => none
      | _ => none

theorem convertSource_of_loneOutput? {source output : Text}
    (found : loneOutput? source = some output) :
    ∃ reports, convertSource source = .ok ⟨output, reports⟩ := by
  unfold loneOutput? at found
  split at found
  · cases found
  · rename_i tree parsed
    split at found
    · rename_i id types
      split at found
      · rename_i decl replacement present judged
        split at found
        · rename_i leaf
          cases found
          refine ⟨_, convertSource_lone parsed types present (fun member listed => ?_) judged⟩
          simpa using List.all_eq_true.mp leaf member listed
        · cases found
      · cases found
    · cases found

end JavaRecords
