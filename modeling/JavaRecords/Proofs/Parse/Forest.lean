import JavaRecords.Proofs.Conversion.Untouched
import JavaRecords.Proofs.Parse.Declarations
import Mathlib.Data.List.Sort

set_option autoImplicit false

namespace JavaRecords

namespace SyntaxTree

def membersOf (tree : SyntaxTree) (id : NodeId) : List NodeId :=
  ((tree.class? id).map ClassDecl.members).getD []

def allMembers (tree : SyntaxTree) : List NodeId :=
  (List.range tree.nodes.size).flatMap tree.membersOf

/-- The ids that the unit and the classes list. -/
def listed (tree : SyntaxTree) : List NodeId :=
  tree.unit.package.toList ++ (tree.unit.imports ++ (tree.unit.types ++ tree.allMembers))

/-- A package declaration with a later one after it. -/
def Superseded (tree : SyntaxTree) (id : NodeId) : Prop :=
  (∃ decl, tree.node? id = some (.package decl)) ∧
    ∃ later decl, id < later ∧ tree.node? later = some (.package decl)

def topLevel (tree : SyntaxTree) : List NodeId :=
  (List.range tree.nodes.size).filter fun id => !tree.allMembers.contains id

/-- A tree without records whose nodes are listed once each, but for superseded package
declarations, which are not listed. The members of a class stand before it. -/
structure Forest (tree : SyntaxTree) : Prop where
  noRecord : ∀ id decl, tree.node? id ≠ some (.record decl)
  distinct : tree.listed.Nodup
  listed_iff : ∀ id, id ∈ tree.listed ↔ (tree.node? id).isSome ∧ ¬ tree.Superseded id
  before : ∀ id decl, tree.class? id = some decl → ∀ member ∈ decl.members, member < id

theorem mem_membersOf {tree : SyntaxTree} {parent child : NodeId} : child ∈ tree.membersOf parent ↔
    ∃ decl, tree.class? parent = some decl ∧ child ∈ decl.members := by
  unfold membersOf
  cases tree.class? parent <;> simp

theorem mem_allMembers {tree : SyntaxTree} {child : NodeId} : child ∈ tree.allMembers ↔
    ∃ parent decl, tree.class? parent = some decl ∧ child ∈ decl.members := by
  unfold allMembers
  rw [List.mem_flatMap]
  constructor
  · rintro ⟨parent, _, listed⟩
    exact ⟨parent, mem_membersOf.mp listed⟩
  · rintro ⟨parent, decl, present, listed⟩
    exact ⟨parent, List.mem_range.mpr (lt_of_class? present),
      mem_membersOf.mpr ⟨decl, present, listed⟩⟩

end SyntaxTree

namespace Outline

variable {source : Text} {tree : SyntaxTree} {outline : Outline} {low high : Nat}

theorem leaves_sublist (kind : NodeKind) (outline : Outline) :
    (outline.leaves kind).Sublist outline.ids := by
  induction outline with
  | nil => exact List.nil_sublist _
  | leaf site node rest ih =>
      rw [leaves, ids]
      split
      · exact ih.cons_cons _
      · exact ih.cons _
  | type site shape members rest _ ih => exact ih.cons _

theorem types_sublist (outline : Outline) : outline.types.Sublist outline.ids := by
  induction outline with
  | nil => exact List.nil_sublist _
  | leaf site node rest ih =>
      rw [types, ids]
      split
      · exact ih.cons_cons _
      · exact ih.cons _
  | type site shape members rest _ ih => exact ih.cons_cons _

theorem Stands.kind_of_mem_leaves {kind : NodeKind} (stands : outline.Stands source tree) :
    ∀ id ∈ outline.leaves kind, ∃ node, tree.node? id = some node ∧ node.kind = kind := by
  induction outline with
  | nil => exact fun _ listed => absurd listed List.not_mem_nil
  | leaf site node rest ih =>
      intro id listed
      rw [leaves] at listed
      split at listed
      · rename_i same
        rcases List.mem_cons.mp listed with rfl | later
        · exact ⟨node, stands.1, same⟩
        · exact ih stands.2.2 id later
      · exact ih stands.2.2 id listed
  | type site shape members rest _ ih => exact fun id listed => ih stands.2.2.2 id listed

theorem Stands.isMember_of_mem_types (stands : outline.Stands source tree) :
    ∀ id ∈ outline.types, ∃ node, tree.node? id = some node ∧ node.isMember = true := by
  induction outline with
  | nil => exact fun _ listed => absurd listed List.not_mem_nil
  | leaf site node rest ih =>
      intro id listed
      rw [types] at listed
      split at listed
      · rename_i isMember
        rcases List.mem_cons.mp listed with rfl | later
        · exact ⟨node, stands.1, isMember⟩
        · exact ih stands.2.2 id later
      · exact ih stands.2.2 id listed
  | type site shape members rest _ ih =>
      intro id listed
      rcases List.mem_cons.mp listed with rfl | later
      · obtain ⟨package, found⟩ := stands.1
        exact ⟨_, found, rfl⟩
      · exact ih stands.2.2.2 id later

/-- A declaration of a unit is a package, an import or a type. -/
theorem UnitShaped.mem_cases (shaped : outline.UnitShaped source) {id : NodeId}
    (listed : id ∈ outline.ids) :
    id ∈ outline.leaves .package ∨ id ∈ outline.leaves .imported ∨ id ∈ outline.types := by
  induction outline with
  | nil => cases listed
  | leaf site node rest ih =>
      rw [leaves, leaves, types]
      rcases List.mem_cons.mp listed with rfl | later
      · cases shaped.1 with
        | package => exact Or.inl (by simp [Node.kind])
        | imported => exact Or.inr (Or.inl (by simp [Node.kind]))
        | textual => exact Or.inr (Or.inr (by simp [Code.textual, Node.isMember]))
      · have others := ih shaped.2 later
        grind
  | type site shape members rest _ ih =>
      rcases List.mem_cons.mp listed with rfl | later
      · exact Or.inr (Or.inr List.mem_cons_self)
      · rcases ih shaped.2.2 later with package | imported | isType
        · exact Or.inl package
        · exact Or.inr (Or.inl imported)
        · exact Or.inr (Or.inr (List.mem_cons_of_mem _ isType))

theorem Stands.member_of_parent (stands : outline.Stands source tree) {parent child : NodeId}
    (held : outline.Parent parent child) :
    ∃ decl, tree.class? parent = some decl ∧ child ∈ decl.members := by
  induction outline with
  | nil => cases held
  | leaf site node rest ih => exact ih stands.2.2 held
  | type site shape members rest ihMembers ihRest =>
      obtain ⟨⟨package, found⟩, _, standsMembers, standsRest⟩ := stands
      rcases held with ⟨rfl, listed⟩ | inner | later
      · exact ⟨_, SyntaxTree.class?_of_node? found, listed⟩
      · exact ihMembers standsMembers inner
      · exact ihRest standsRest later

theorem Numbered.mem_ids_or_parent (numbered : outline.Numbered low high) {id : NodeId}
    (inside : low ≤ id ∧ id < high) : id ∈ outline.ids ∨ ∃ parent, outline.Parent parent id := by
  induction outline generalizing low high with
  | nil =>
      have same : low = high := numbered
      exact absurd (Nat.lt_of_le_of_lt inside.1 inside.2) (by rw [same]; exact Nat.lt_irrefl _)
  | leaf site node rest ih =>
      obtain ⟨rfl, numberedRest⟩ := numbered
      rcases Nat.eq_or_lt_of_le inside.1 with rfl | behind
      · exact Or.inl List.mem_cons_self
      · rcases ih numberedRest ⟨behind, inside.2⟩ with listed | held
        · exact Or.inl (List.mem_cons_of_mem _ listed)
        · exact Or.inr held
  | type site shape members rest ihMembers ihRest =>
      obtain ⟨numberedMembers, numberedRest⟩ := numbered
      rcases Nat.lt_trichotomy id site.id with before | rfl | behind
      · rcases ihMembers numberedMembers ⟨inside.1, before⟩ with listed | ⟨parent, held⟩
        · exact Or.inr ⟨site.id, Or.inl ⟨rfl, listed⟩⟩
        · exact Or.inr ⟨parent, Or.inr (Or.inl held)⟩
      · exact Or.inl List.mem_cons_self
      · rcases ihRest numberedRest ⟨behind, inside.2⟩ with listed | ⟨parent, held⟩
        · exact Or.inl (List.mem_cons_of_mem _ listed)
        · exact Or.inr ⟨parent, Or.inr (Or.inr held)⟩

end Outline

namespace ParsedUnit

variable {source : Text} {tree : SyntaxTree} (unit : ParsedUnit source tree)

include unit

theorem package_eq : tree.unit.package = (unit.outline.leaves .package).getLast? := by
  rw [unit.adds.package]
  cases (unit.outline.leaves .package).getLast? <;> rfl

theorem mem_leaves_of_unit {id : NodeId} (isPackage : tree.unit.package = some id) :
    id ∈ unit.outline.leaves .package := by
  rw [unit.package_eq] at isPackage
  exact List.mem_of_getLast? isPackage

theorem imports_eq : tree.unit.imports = unit.outline.leaves .imported := by
  rw [unit.adds.imports]
  rfl

/-- The members of the classes are the declarations that stand in a class. -/
theorem mem_allMembers_iff {id : NodeId} :
    id ∈ tree.allMembers ↔ ∃ parent, unit.outline.Parent parent id := by
  rw [SyntaxTree.mem_allMembers]
  constructor
  · rintro ⟨parent, decl, present, listed⟩
    exact ⟨parent, unit.parent_of_member present listed⟩
  · rintro ⟨parent, held⟩
    exact ⟨parent, unit.adds.stands.member_of_parent held⟩

theorem mem_ids_iff {id : NodeId} :
    id ∈ unit.outline.ids ↔ id < tree.nodes.size ∧ id ∉ tree.allMembers := by
  constructor
  · intro listed
    refine ⟨(unit.numbered.mem_ids listed).2, fun member => ?_⟩
    obtain ⟨parent, held⟩ := unit.mem_allMembers_iff.mp member
    exact unit.numbered.not_mem_ids held listed
  · rintro ⟨known, free⟩
    rcases unit.numbered.mem_ids_or_parent ⟨Nat.zero_le _, known⟩ with listed | held
    · exact listed
    · exact absurd (unit.mem_allMembers_iff.mpr held) free

/-- The declarations outside classes, in order. -/
theorem topLevel_eq : tree.topLevel = unit.outline.ids := by
  have sorted : tree.topLevel.Pairwise (· < ·) := List.Pairwise.filter _ List.pairwise_lt_range
  refine sorted.eq_of_mem_iff unit.numbered.sorted fun id => ?_
  rw [unit.mem_ids_iff, SyntaxTree.topLevel, List.mem_filter, List.mem_range]
  simp

theorem nodup_allMembers : tree.allMembers.Nodup := by
  unfold SyntaxTree.allMembers
  refine List.nodup_flatMap.mpr ⟨?_, ?_⟩
  · intro id _
    unfold SyntaxTree.membersOf
    cases present : tree.class? id with
    | none => exact List.nodup_nil
    | some decl =>
        obtain ⟨site, shape, members, rfl, isClass⟩ := unit.exists_class present
        obtain ⟨package, found⟩ := isClass.present
        obtain ⟨low, numbered⟩ := isClass.numbered
        rw [found, Option.some.injEq] at present
        rw [← present]
        exact numbered.sorted.imp Nat.ne_of_lt
  · refine List.Pairwise.imp (fun different => ?_) (List.nodup_range (n := tree.nodes.size))
    intro child here there
    obtain ⟨decl, present, listed⟩ := SyntaxTree.mem_membersOf.mp here
    obtain ⟨other, presentOther, listedOther⟩ := SyntaxTree.mem_membersOf.mp there
    exact different (unit.numbered.parent_unique (unit.parent_of_member present listed)
      (unit.parent_of_member presentOther listedOther))

theorem sorted_leaves (kind : NodeKind) : (unit.outline.leaves kind).Pairwise (· < ·) :=
  unit.numbered.sorted.sublist (Outline.leaves_sublist kind _)

/-- A member of a class is not a package declaration or an import. -/
theorem isMember_of_mem_allMembers {id : NodeId} (listed : id ∈ tree.allMembers) :
    ∃ node, tree.node? id = some node ∧ node.isMember = true := by
  obtain ⟨parent, decl, present, member⟩ := SyntaxTree.mem_allMembers.mp listed
  obtain ⟨site, shape, members, rfl, isClass⟩ := unit.exists_class present
  obtain ⟨package, found⟩ := isClass.present
  rw [found, Option.some.injEq] at present
  rw [← present] at member
  exact isClass.shaped.isMember isClass.among.stands id member

/-- The package declarations are among the declarations outside classes. -/
theorem mem_leaves_of_package {id : NodeId} {decl : PackageDecl}
    (found : tree.node? id = some (.package decl)) : id ∈ unit.outline.leaves .package := by
  have known : id < tree.nodes.size := SyntaxTree.lt_of_node?_isSome (by rw [found]; rfl)
  have free : id ∉ tree.allMembers := by
    intro listed
    obtain ⟨node, same, isMember⟩ := unit.isMember_of_mem_allMembers listed
    cases found.symm.trans same
    cases isMember
  rcases unit.adds.shaped.mem_cases (unit.mem_ids_iff.mpr ⟨known, free⟩) with
    isPackage | imported | isType
  · exact isPackage
  · obtain ⟨node, same, kind⟩ := unit.adds.stands.kind_of_mem_leaves id imported
    cases found.symm.trans same
    cases kind
  · obtain ⟨node, same, isMember⟩ := unit.adds.stands.isMember_of_mem_types id isType
    cases found.symm.trans same
    cases isMember

/-- The package of the unit is the one package declaration that is not superseded. -/
theorem superseded_iff {id : NodeId} (isPackage : id ∈ unit.outline.leaves .package) :
    tree.Superseded id ↔ tree.unit.package ≠ some id := by
  rw [unit.package_eq]
  cases isLast : (unit.outline.leaves .package).getLast? with
  | none =>
      rw [List.getLast?_eq_none_iff.mp isLast] at isPackage
      cases isPackage
  | some last =>
      obtain ⟨front, split⟩ := List.getLast?_eq_some_iff.mp isLast
      have sorted := unit.sorted_leaves .package
      rw [split] at sorted
      have before : ∀ other ∈ unit.outline.leaves .package, other ≠ last → other < last := by
        intro other listed different
        rw [split] at listed
        rcases List.mem_append.mp listed with early | late
        · exact (List.pairwise_append.mp sorted).2.2 other early last (List.mem_singleton.mpr rfl)
        · exact absurd (List.mem_singleton.mp late) different
      constructor
      · rintro ⟨_, later, decl, behind, found⟩ same
        cases same
        have listed := unit.mem_leaves_of_package found
        exact Nat.lt_asymm behind (before later listed (Nat.ne_of_gt behind))
      · intro different
        have after := before id isPackage fun same => different (by rw [same])
        have lastListed : last ∈ unit.outline.leaves .package := by
          rw [split]
          simp
        have asPackage : ∀ other ∈ unit.outline.leaves .package,
            ∃ decl, tree.node? other = some (.package decl) := by
          intro other listed
          obtain ⟨node, found, kind⟩ := unit.adds.stands.kind_of_mem_leaves other listed
          cases node <;> first | exact ⟨_, found⟩ | cases kind
        obtain ⟨decl, found⟩ := asPackage last lastListed
        exact ⟨asPackage id isPackage, last, decl, after, found⟩

theorem mem_listed_iff {id : NodeId} : id ∈ tree.listed ↔
    (tree.unit.package = some id ∧ id ∈ unit.outline.leaves .package) ∨
      id ∈ unit.outline.leaves .imported ∨ id ∈ unit.outline.types ∨ id ∈ tree.allMembers := by
  have package : tree.unit.package = some id → id ∈ unit.outline.leaves .package :=
    unit.mem_leaves_of_unit
  unfold SyntaxTree.listed
  rw [unit.imports_eq, unit.types]
  simp only [List.mem_append, Option.mem_toList]
  grind

theorem nodup_listed : tree.listed.Nodup := by
  have package : ∀ id ∈ tree.unit.package.toList, id ∈ unit.outline.leaves .package :=
    fun id listed => unit.mem_leaves_of_unit (Option.mem_toList.mp listed)
  have kinds : ∀ id ∈ unit.outline.leaves .package, id ∉ unit.outline.leaves .imported := by
    intro id isPackage imported
    obtain ⟨node, found, kind⟩ := unit.adds.stands.kind_of_mem_leaves id isPackage
    obtain ⟨other, foundOther, kindOther⟩ := unit.adds.stands.kind_of_mem_leaves id imported
    rw [found, Option.some.injEq] at foundOther
    rw [← foundOther, kind] at kindOther
    cases kindOther
  have noType : ∀ kind, kind = .package ∨ kind = .imported →
      ∀ id ∈ unit.outline.leaves kind, id ∉ unit.outline.types := by
    intro kind either id isLeaf isType
    obtain ⟨node, found, same⟩ := unit.adds.stands.kind_of_mem_leaves id isLeaf
    obtain ⟨other, foundOther, isMember⟩ := unit.adds.stands.isMember_of_mem_types id isType
    cases found.symm.trans foundOther
    subst same
    cases node <;> simp [Node.kind, Node.isMember] at either isMember
  have outside : ∀ id ∈ unit.outline.ids, id ∉ tree.allMembers :=
    fun id listed => (unit.mem_ids_iff.mp listed).2
  have leaf : ∀ kind, ∀ id ∈ unit.outline.leaves kind, id ∈ unit.outline.ids :=
    fun kind id listed => (Outline.leaves_sublist kind _).subset listed
  have isType : ∀ id ∈ unit.outline.types, id ∈ unit.outline.ids :=
    fun id listed => (Outline.types_sublist _).subset listed
  have distinct : ∀ ids : List NodeId, ids.Sublist unit.outline.ids → ids.Nodup :=
    fun ids sub => (unit.numbered.sorted.sublist sub).imp Nat.ne_of_lt
  unfold SyntaxTree.listed
  rw [unit.imports_eq, unit.types]
  refine List.Nodup.append (by cases tree.unit.package <;> simp) (List.Nodup.append
    (distinct _ (Outline.leaves_sublist _ _)) (List.Nodup.append
      (distinct _ (Outline.types_sublist _)) unit.nodup_allMembers ?_) ?_) ?_
  · exact fun id listed => outside id (isType id listed)
  · intro id imported others
    rcases List.mem_append.mp others with isTypeId | member
    · exact noType .imported (Or.inr rfl) id imported isTypeId
    · exact outside id (leaf _ id imported) member
  · intro id isPackage others
    have isLeaf := package id isPackage
    rcases List.mem_append.mp others with imported | others
    · exact kinds id isLeaf imported
    · rcases List.mem_append.mp others with isTypeId | member
      · exact noType .package (Or.inl rfl) id isLeaf isTypeId
      · exact outside id (leaf _ id isLeaf) member

theorem listed_iff (id : NodeId) :
    id ∈ tree.listed ↔ (tree.node? id).isSome ∧ ¬ tree.Superseded id := by
  rw [unit.mem_listed_iff]
  have isMember : ∀ node, tree.node? id = some node → node.isMember = true →
      (tree.node? id).isSome ∧ ¬ tree.Superseded id := by
    rintro node found isMember
    refine ⟨by rw [found]; rfl, ?_⟩
    rintro ⟨⟨decl, isPackage⟩, _⟩
    cases isPackage.symm.trans found
    cases isMember
  constructor
  · rintro (⟨same, isPackage⟩ | imported | isType | member)
    · obtain ⟨node, found, _⟩ := unit.adds.stands.kind_of_mem_leaves id isPackage
      refine ⟨by rw [found]; rfl, fun superseded => ?_⟩
      exact (unit.superseded_iff isPackage).mp superseded same
    · obtain ⟨node, found, kind⟩ := unit.adds.stands.kind_of_mem_leaves id imported
      refine ⟨by rw [found]; rfl, ?_⟩
      rintro ⟨⟨decl, isPackage⟩, _⟩
      cases isPackage.symm.trans found
      cases kind
    · obtain ⟨node, found, member⟩ := unit.adds.stands.isMember_of_mem_types id isType
      exact isMember node found member
    · obtain ⟨node, found, member⟩ := unit.isMember_of_mem_allMembers member
      exact isMember node found member
  · rintro ⟨known, current⟩
    by_cases member : id ∈ tree.allMembers
    · exact Or.inr (Or.inr (Or.inr member))
    · have listed := unit.mem_ids_iff.mpr ⟨SyntaxTree.lt_of_node?_isSome known, member⟩
      rcases unit.adds.shaped.mem_cases listed with isPackage | imported | isType
      · refine Or.inl ⟨?_, isPackage⟩
        by_contra different
        exact current ((unit.superseded_iff isPackage).mpr different)
      · exact Or.inr (Or.inl imported)
      · exact Or.inr (Or.inr (Or.inl isType))

theorem forest : tree.Forest where
  noRecord := by
    intro id decl found
    rcases unit.exists_declaration (by rw [found]; rfl) with
      ⟨site, node, rest, rfl, among⟩ | ⟨site, shape, members, rfl, isClass⟩
    · have plain := among.plain
      cases among.stands.1.symm.trans found
      exact plain
    · obtain ⟨package, present⟩ := isClass.present
      rw [SyntaxTree.node?_of_class? present] at found
      cases found
  distinct := unit.nodup_listed
  listed_iff := unit.listed_iff
  before id decl present member listed :=
    (unit.numbered.lt_parent (unit.parent_of_member present listed)).2.1

end ParsedUnit

end JavaRecords
