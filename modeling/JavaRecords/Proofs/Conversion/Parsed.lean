import JavaRecords.Proofs.Conversion.Comments
import JavaRecords.Proofs.Parse.Member
import JavaRecords.Proofs.Conversion.Idempotent
import JavaRecords.Proofs.Print.Printed

set_option autoImplicit false

namespace JavaRecords

namespace Code

theorem plain_of_memberNode {className : Text} {position : Nat} {run : ModifierRun}
    {last : CodeToken} {source : Excerpt} {node : Node}
    (read : memberNode className position run last source = .ok node) :
    Outline.Plain source node := by
  rcases memberNode_cases read with rfl | ⟨_, _, block, _, _, _, rfl⟩ | ⟨typeParams, code, _, parts⟩
  · rfl
  · rfl
  · rcases parts with ⟨name, paren, after, _, made⟩ | ⟨split, _, made | ⟨decl, field, rfl⟩⟩
    · rcases constructorNode_cases made with ⟨kind, label, rfl⟩ | ⟨decl, rfl, same, _⟩
      · rfl
      · exact congrArg some same
    · rcases methodNode_cases made with ⟨kind, label, rfl⟩ | ⟨decl, rfl, same, _⟩
      · rfl
      · exact congrArg some same
    · exact congrArg some (parts_of_field? field).2.1

theorem plain_of_memberShape {className : Text} {position : Nat} {piece : Piece} {source : Excerpt}
    {node : Node} (shaped : memberShape className position piece source = .ok (.node node)) :
    Outline.Plain source node := by
  rcases memberNode_of_memberShape shaped with ⟨kind, name, rfl⟩ | ⟨run, _, read⟩
  · rfl
  · exact plain_of_memberNode read

theorem UnitLeaf.plain {piece : Piece} {source : Excerpt} {node : Node}
    (isLeaf : UnitLeaf piece source node) : Outline.Plain source node := by
  cases isLeaf <;> rfl

end Code

namespace Outline

/-- The declarations that are not classes with a body are printed as they stand. -/
def PlainLeaves (source : Text) : Outline → Prop
  | nil => True
  | leaf site node rest => Plain (site.placed source).source node ∧ rest.PlainLeaves source
  | type _ _ members rest => members.PlainLeaves source ∧ rest.PlainLeaves source

theorem Shaped.plainLeaves {source className : Text} {position : Nat} {outline : Outline}
    (shaped : outline.Shaped source className position) : outline.PlainLeaves source := by
  induction outline generalizing className position with
  | nil => trivial
  | leaf site node rest ih => exact ⟨Code.plain_of_memberShape shaped.1, ih shaped.2⟩
  | type site shape members rest ihMembers ihRest =>
      exact ⟨ihMembers shaped.2.1, ihRest shaped.2.2⟩

theorem UnitShaped.plainLeaves {source : Text} {outline : Outline}
    (shaped : outline.UnitShaped source) : outline.PlainLeaves source := by
  induction outline with
  | nil => trivial
  | leaf site node rest ih => exact ⟨shaped.1.plain, ih shaped.2⟩
  | type site shape members rest _ ihRest => exact ⟨shaped.2.1.plainLeaves, ihRest shaped.2.2⟩

theorem Numbered.mem_ids {low high : Nat} {outline : Outline} (numbered : outline.Numbered low high)
    {id : NodeId} (listed : id ∈ outline.ids) : low ≤ id ∧ id < high := by
  induction outline generalizing low high with
  | nil => cases listed
  | leaf site node rest ih =>
      obtain ⟨rfl, numberedRest⟩ := numbered
      rcases List.mem_cons.mp listed with rfl | later
      · exact ⟨Nat.le_refl _, Nat.lt_of_lt_of_le (Nat.lt_succ_self _) numberedRest.le⟩
      · have := ih numberedRest later
        exact ⟨Nat.le_of_succ_le this.1, this.2⟩
  | type site shape members rest _ ihRest =>
      obtain ⟨numberedMembers, numberedRest⟩ := numbered
      rcases List.mem_cons.mp listed with rfl | later
      · exact ⟨numberedMembers.le, Nat.lt_of_lt_of_le (Nat.lt_succ_self _) numberedRest.le⟩
      · have := ihRest numberedRest later
        exact ⟨Nat.le_trans numberedMembers.le (Nat.le_of_succ_le this.1), this.2⟩

theorem Stands.node?_isSome {source : Text} {tree : SyntaxTree} {outline : Outline}
    (stands : outline.Stands source tree) {id : NodeId} (listed : id ∈ outline.ids) :
    (tree.node? id).isSome := by
  induction outline with
  | nil => cases listed
  | leaf site node rest ih =>
      rcases List.mem_cons.mp listed with rfl | later
      · rw [stands.1]
        rfl
      · exact ih stands.2.2 later
  | type site shape members rest _ ihRest =>
      rcases List.mem_cons.mp listed with rfl | later
      · obtain ⟨package, found⟩ := stands.1
        rw [found]
        rfl
      · exact ihRest stands.2.2.2 later

theorem Plain.class?_eq_none {source : Excerpt} {node : Node} (plain : Plain source node)
    {tree : SyntaxTree} {id : NodeId} (found : tree.node? id = some node) :
    tree.class? id = none := by
  unfold SyntaxTree.class?
  rw [found]
  cases node <;> first | rfl | cases plain

theorem Plain.source?_eq {source : Excerpt} {node : Node} (plain : Plain source node) :
    node.source? = some source := by
  cases node <;> first | exact plain | cases plain

theorem Stands.members_before {source : Text} {tree : SyntaxTree} {outline : Outline}
    {low high : Nat} (stands : outline.Stands source tree) (numbered : outline.Numbered low high)
    (plain : outline.PlainLeaves source) {id : NodeId} (inside : low ≤ id ∧ id < high)
    {decl : ClassDecl} (present : tree.class? id = some decl) :
    ∀ member ∈ decl.members, member < id ∧ (tree.node? member).isSome := by
  induction outline generalizing low high with
  | nil =>
      have same : low = high := numbered
      exact absurd (Nat.lt_of_le_of_lt inside.1 inside.2) (by rw [same]; exact Nat.lt_irrefl _)
  | leaf site node rest ih =>
      obtain ⟨rfl, numberedRest⟩ := numbered
      by_cases same : id = site.id
      · subst same
        rw [plain.1.class?_eq_none stands.1] at present
        cases present
      · exact ih stands.2.2 numberedRest plain.2
          ⟨Nat.lt_of_le_of_ne inside.1 (Ne.symm same), inside.2⟩
  | type site shape members rest ihMembers ihRest =>
      obtain ⟨⟨package, found⟩, _, standsMembers, standsRest⟩ := stands
      obtain ⟨numberedMembers, numberedRest⟩ := numbered
      rcases Nat.lt_trichotomy id site.id with before | rfl | behind
      · exact ihMembers standsMembers numberedMembers plain.1 ⟨inside.1, before⟩
      · rw [SyntaxTree.class?_of_node? found] at present
        cases present
        intro member listed
        exact ⟨(numberedMembers.mem_ids listed).2, standsMembers.node?_isSome listed⟩
      · exact ihRest standsRest numberedRest plain.2 ⟨behind, inside.2⟩

/-- A class among the declarations of a unit is one of its types. -/
theorem Stands.mem_types {source : Text} {tree : SyntaxTree} {outline : Outline}
    (stands : outline.Stands source tree) (plain : outline.PlainLeaves source) {id : NodeId}
    (listed : id ∈ outline.ids) (isClass : (tree.class? id).isSome) : id ∈ outline.types := by
  induction outline with
  | nil => cases listed
  | leaf site node rest ih =>
      rw [types]
      rcases List.mem_cons.mp listed with rfl | later
      · rw [plain.1.class?_eq_none stands.1] at isClass
        cases isClass
      · have inside := ih stands.2.2 plain.2 later
        split
        · exact List.mem_cons_of_mem _ inside
        · exact inside
  | type site shape members rest _ ihRest =>
      rcases List.mem_cons.mp listed with rfl | later
      · exact List.mem_cons_self
      · exact List.mem_cons_of_mem _ (ihRest stands.2.2.2 plain.2 later)

end Outline

namespace SyntaxTree

/-- The classes of the unit that become records. -/
def replacements (tree : SyntaxTree) : List (NodeId × Replacement) :=
  replacementsOf (tree.targets.map tree.judge)

/-- The conversion of the unit. -/
def rebuild (tree : SyntaxTree) : Rebuild := Rebuild.run tree tree.replacements

def printing (tree : SyntaxTree) : Printing where
  tree := tree.rebuild.tree
  image := tree.rebuild.image
  record? id := (tree.replacements.lookup id).map Replacement.record

theorem convertUnit_tree (tree : SyntaxTree) : tree.convertUnit.tree = tree.rebuild.tree := rfl

theorem lookup_replacements (tree : SyntaxTree) (id : NodeId) (replacement : Replacement) :
    tree.replacements.lookup id = some replacement ↔
      id ∈ tree.targets ∧ (tree.judge id).verdict = .replace replacement :=
  lookup_replacementsOf tree tree.targets id replacement

theorem replacement_of_judged {tree : SyntaxTree} {id : NodeId} {replacement : Replacement}
    {decl : ClassDecl} (judged : (tree.judge id).verdict = .replace replacement)
    (present : tree.class? id = some decl) :
    ∃ members eligible, tree.resolveMembers [] none decl.members = .ok members ∧
      ClassView.classify ⟨id, decl, members⟩ = .eligible eligible ∧
      replacement.partition = ClassView.partition ⟨id, decl, members⟩ eligible ∧
      replacement.record =
        ClassView.toRecord ⟨id, decl, members⟩ eligible replacement.partition := by
  obtain ⟨view, eligible, found, classified, rfl⟩ := (tree.judge_eq_replace_iff _ _).mp judged
  obtain ⟨same, members, presentSame, read, rfl⟩ := (tree.resolveClass_eq_some_iff _ _).mp found
  rw [present] at presentSame
  cases presentSame
  exact ⟨members, eligible, read, classified, rfl, rfl⟩

theorem class?_of_judged {tree : SyntaxTree} {id : NodeId} {replacement : Replacement}
    (judged : (tree.judge id).verdict = .replace replacement) :
    ∃ decl, tree.class? id = some decl := by
  obtain ⟨view, eligible, found, _, _⟩ := (tree.judge_eq_replace_iff _ _).mp judged
  obtain ⟨decl, _, present, _, _⟩ := (tree.resolveClass_eq_some_iff _ _).mp found
  exact ⟨decl, present⟩

theorem replacement_of_class {tree : SyntaxTree} {id : NodeId} {replacement : Replacement}
    {decl : ClassDecl} (chosen : tree.replacements.lookup id = some replacement)
    (present : tree.class? id = some decl) :
    ∃ members eligible, tree.resolveMembers [] none decl.members = .ok members ∧
      ClassView.classify ⟨id, decl, members⟩ = .eligible eligible ∧
      replacement.partition = ClassView.partition ⟨id, decl, members⟩ eligible ∧
      replacement.record =
        ClassView.toRecord ⟨id, decl, members⟩ eligible replacement.partition :=
  replacement_of_judged ((tree.lookup_replacements id replacement).mp chosen).2 present

/-- Only a class is replaced. -/
theorem class?_of_replacement {tree : SyntaxTree} {id : NodeId} {replacement : Replacement}
    (chosen : tree.replacements.lookup id = some replacement) :
    ∃ decl, tree.class? id = some decl :=
  class?_of_judged ((tree.lookup_replacements id replacement).mp chosen).2

/-- The conversion of some classes. -/
def rebuildOf (tree : SyntaxTree) (ids : List NodeId) : Rebuild :=
  Rebuild.run tree (replacementsOf (ids.map tree.judge))

theorem convert_tree (tree : SyntaxTree) (ids : List NodeId) :
    (tree.convert ids).tree = (tree.rebuildOf ids).tree := rfl

/-- The record that a class becomes when it is converted. -/
def recordFor? (tree : SyntaxTree) (id : NodeId) : Option RecordDecl :=
  match (tree.judge id).verdict with
  | .replace replacement => some replacement.record
  | _ => none

theorem recordFor?_eq_some_iff {tree : SyntaxTree} {id : NodeId} {record : RecordDecl} :
    tree.recordFor? id = some record ↔
      ∃ replacement, (tree.judge id).verdict = .replace replacement ∧
        replacement.record = record := by
  unfold recordFor?
  cases (tree.judge id).verdict <;> simp

/-- The conversion of some classes as it is to be printed. -/
def printingOf (tree : SyntaxTree) (ids : List NodeId) : Printing where
  tree := (tree.rebuildOf ids).tree
  image := (tree.rebuildOf ids).image
  record? id := if id ∈ ids then tree.recordFor? id else none

theorem map_record_lookup (tree : SyntaxTree) (ids : List NodeId) (id : NodeId) :
    ((replacementsOf (ids.map tree.judge)).lookup id).map Replacement.record =
      if id ∈ ids then tree.recordFor? id else none := by
  refine Option.ext fun record => ?_
  rw [Option.map_eq_some_iff]
  simp only [lookup_replacementsOf]
  by_cases listed : id ∈ ids
  · simp only [listed, true_and, if_true, recordFor?_eq_some_iff]
  · simp [listed]

theorem printing_eq (tree : SyntaxTree) : tree.printing = tree.printingOf tree.targets :=
  congrArg (Printing.mk _ _) (funext (tree.map_record_lookup tree.targets))

end SyntaxTree

/-- A conversion that met the declarations has put a record or a copy in the place of each class. -/
theorem Outline.Stands.rebuilt {source : Text} {tree : SyntaxTree} {outline : Outline}
    (stands : outline.Stands source tree) (plain : outline.PlainLeaves source)
    (same : tree.source = source) {ids : List NodeId}
    (sound : Rebuild.Sound tree (replacementsOf (ids.map tree.judge)) (tree.rebuildOf ids))
    (met : ∀ id ∈ outline.ids, Rebuild.Met tree (tree.rebuildOf ids) id) :
    outline.Rebuilt (tree.printingOf ids) := by
  have sourceSame : (tree.printingOf ids).tree.source = source := sound.source.trans same
  induction outline with
  | nil => trivial
  | leaf site node rest ih =>
      obtain ⟨found, _, standsRest⟩ := stands
      refine ⟨?_, ?_, ih standsRest plain.2 fun id listed => met id (List.mem_cons_of_mem _ listed)⟩
      · rw [← found]
        exact sound.node?_image_of_not_class (met site.id List.mem_cons_self).known
          (plain.1.class?_eq_none found)
      · rw [sourceSame]
        exact plain.1
  | type site shape members rest ihMembers ihRest =>
      obtain ⟨⟨package, found⟩, _, standsMembers, standsRest⟩ := stands
      have present := SyntaxTree.class?_of_node? found
      obtain ⟨settled, place⟩ :=
        sound.node?_image_of_class (met site.id List.mem_cons_self) present
      refine ⟨?_, ihMembers standsMembers plain.1 ?_, ihRest standsRest plain.2 fun id listed =>
        met id (List.mem_cons_of_mem _ listed)⟩
      · have converts : (tree.printingOf ids).record? site.id =
            ((replacementsOf (ids.map tree.judge)).lookup site.id).map Replacement.record :=
          (tree.map_record_lookup ids site.id).symm
        cases chosen : (replacementsOf (ids.map tree.judge)).lookup site.id with
        | some replacement =>
            rw [chosen] at place
            rw [converts, chosen, Option.map_some]
            refine ⟨place, ?_, tree.membersKept _ site.id replacement _ chosen present⟩
            have judged := ((lookup_replacementsOf tree ids _ _).mp chosen).2
            obtain ⟨_, _, _, _, _, made⟩ := SyntaxTree.replacement_of_judged judged present
            rw [made]
            rfl
        | none =>
            rw [chosen] at place
            rw [converts, chosen, Option.map_none]
            exact ⟨_, rfl, by rw [sourceSame]; rfl, place⟩
      · intro id listed
        exact ⟨standsMembers.node?_isSome listed, settled id listed⟩

namespace ParsedUnit

variable {source : Text} {tree : SyntaxTree} (unit : ParsedUnit source tree)

include unit

theorem source_eq : tree.source = source := unit.adds.grows.source

theorem numbered : unit.outline.Numbered 0 tree.nodes.size := unit.adds.numbered

theorem types : tree.unit.types = unit.outline.types := by simpa using unit.adds.types

theorem plainLeaves : unit.outline.PlainLeaves source := unit.adds.shaped.plainLeaves

theorem tidy : tree.Tidy :=
  unit.adds.tidy ⟨fun _ _ found => (by cases found), fun _ _ found => (by cases found)⟩

theorem types_subset {id : NodeId} (listed : id ∈ tree.unit.types) : id ∈ unit.outline.ids := by
  rw [unit.types, ← Outline.listed_isMember] at listed
  exact Outline.mem_ids_of_mem_listed listed

theorem known : tree.Known where
  types _ listed := unit.adds.stands.node?_isSome (unit.types_subset listed)
  members _ _ present member listed :=
    (unit.adds.stands.members_before unit.numbered unit.plainLeaves
      ⟨Nat.zero_le _, SyntaxTree.lt_of_class? present⟩ present member listed).2

theorem holds_lt (parent child : NodeId) (held : tree.Holds parent child) : child < parent := by
  obtain ⟨decl, present, listed, _⟩ := held
  exact (unit.adds.stands.members_before unit.numbered unit.plainLeaves
    ⟨Nat.zero_le parent, SyntaxTree.lt_of_class? present⟩ present child listed).1

theorem acyclic : tree.Acyclic := SyntaxTree.acyclic_of_lt unit.holds_lt

theorem sound_rebuildOf (ids : List NodeId) :
    Rebuild.Sound tree (replacementsOf (ids.map tree.judge)) (tree.rebuildOf ids) :=
  (Rebuild.run_sound unit.acyclic (tree.membersKept ids)).1

theorem sound : Rebuild.Sound tree tree.replacements tree.rebuild :=
  unit.sound_rebuildOf tree.targets

theorem commented : Rebuild.Commented tree tree.rebuild :=
  Rebuild.run_commented unit.acyclic (tree.membersKept tree.targets) unit.tidy

/-- A conversion meets all declarations of the unit. -/
theorem met_rebuildOf (ids : List NodeId) {id : NodeId} (listed : id ∈ unit.outline.ids) :
    Rebuild.Met tree (tree.rebuildOf ids) id := by
  refine ⟨unit.adds.stands.node?_isSome listed, fun isClass => ?_⟩
  have settled := (Rebuild.run_sound unit.acyclic (tree.membersKept ids)).2.2.1
  refine settled id ?_ isClass
  rw [unit.types]
  exact unit.adds.stands.mem_types unit.plainLeaves listed isClass

theorem met {id : NodeId} (listed : id ∈ unit.outline.ids) : Rebuild.Met tree tree.rebuild id :=
  unit.met_rebuildOf tree.targets listed

theorem rebuilt_printingOf (ids : List NodeId) : unit.outline.Rebuilt (tree.printingOf ids) :=
  unit.adds.stands.rebuilt unit.plainLeaves unit.source_eq (unit.sound_rebuildOf ids) fun _ =>
    unit.met_rebuildOf ids

theorem rebuilt : unit.outline.Rebuilt tree.printing := by
  rw [tree.printing_eq]
  exact unit.rebuilt_printingOf tree.targets

end ParsedUnit

end JavaRecords
