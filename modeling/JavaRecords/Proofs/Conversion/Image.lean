import JavaRecords.Proofs.Conversion.Carried
import JavaRecords.Proofs.Conversion.Provided
import JavaRecords.Proofs.Conversion.Reports
import JavaRecords.Proofs.Parse.Forest

set_option autoImplicit false

namespace JavaRecords

/-- The record of a class: its header, its instance fields as components, and what takes the place
of the members that the record does not provide by itself. -/
def SyntaxTree.recordOf (tree : SyntaxTree) (image : NodeId → NodeId) (id : NodeId)
    (decl : ClassDecl) (eligible : Eligible) : RecordDecl where
  name := decl.name
  typeParams := decl.typeParams
  modifiers := decl.modifiers
  headerPrefix := decl.headerPrefix
  interfaces := decl.interfaces
  package := decl.package
  components := (tree.instanceFieldsOf decl).map FieldDecl.toComponent
  members := (decl.members.filter fun member => !tree.provides eligible member).map image
  indent := decl.source.indent
  extent := decl.source.extent
  origin := id

/-- The members of a class stand before it. -/
def SyntaxTree.Ordered (tree : SyntaxTree) : Prop :=
  ∀ id decl, tree.class? id = some decl → ∀ member ∈ decl.members, member < id

namespace UnitConversion

/-- A member of a converted class that the record provides by itself. -/
def Elides (conversion : UnitConversion) (tree : SyntaxTree) (member : NodeId) : Prop :=
  ∃ id record decl eligible, conversion.Converts id record ∧ tree.class? id = some decl ∧
    tree.classify id = .ok (.eligible eligible) ∧ member ∈ decl.members ∧
    tree.provides eligible member = true

/-- A class that is not converted and holds, at some depth, a class that is. -/
def Copies (conversion : UnitConversion) (tree : SyntaxTree) (id : NodeId) : Prop :=
  (∀ record, ¬ conversion.Converts id record) ∧
    ∃ inner record, conversion.Converts inner record ∧ Relation.TransGen tree.Holds id inner

/-- The record of a converted class stands in its place. -/
def Records (conversion : UnitConversion) (tree : SyntaxTree) (image : NodeId → NodeId)
    (id record : NodeId) : Prop :=
  ∃ decl eligible, tree.class? id = some decl ∧ tree.classify id = .ok (.eligible eligible) ∧
    eligible.components.map Component.toRecordComponent =
      (tree.instanceFieldsOf decl).map FieldDecl.toComponent ∧
    decl.members.find? (tree.hasCanonicalShape eligible.components) = some eligible.canonical ∧
    conversion.tree.record? record = some (tree.recordOf image id decl eligible)

/-- What a conversion puts in the place of each node, and the comments there. -/
structure Places (conversion : UnitConversion) (tree : SyntaxTree) (image : NodeId → NodeId) :
    Prop where
  types : conversion.tree.unit.types = tree.unit.types.map image
  nodes : ∀ id, id < tree.nodes.size → conversion.tree.node? id = tree.node? id
  converted : ∀ id record, conversion.Converts id record →
    image id = record ∧ tree.nodes.size ≤ record ∧ conversion.Records tree image id record
  copied : ∀ id, conversion.Copies tree id → tree.nodes.size ≤ image id ∧
    ∃ decl, tree.class? id = some decl ∧
      conversion.tree.class? (image id) = some { decl with members := decl.members.map image }
  kept : ∀ id, (∀ record, ¬ conversion.Converts id record) → ¬ conversion.Copies tree id →
    image id = id
  distinct : ∀ id other, id < tree.nodes.size → other < tree.nodes.size →
    image id = image other → id = other
  comments : ∀ id, id < tree.nodes.size → ¬ conversion.Elides tree id →
    conversion.tree.trivia.get? (image id) = tree.trivia.get? id
  elided : ∀ id, conversion.Elides tree id → conversion.tree.trivia.get? id = none

end UnitConversion

namespace Rebuild

variable {input : SyntaxTree} {replacements : List (NodeId × Replacement)} {state : Rebuild}

/-- A node that leads to no replaced class is its own image. -/
theorem Sound.image_eq_of_free (sound : Sound input replacements state) (ordered : input.Ordered)
    {id : NodeId} (free : ∀ inner, Relation.ReflTransGen input.Holds id inner →
      replacements.lookup inner = none) : state.image id = id := by
  induction id using Nat.strong_induction_on with
  | _ id ih =>
      cases found : state.replaced.lookup id with
      | none => rw [image, found, Option.getD_none]
      | some output =>
          obtain ⟨decl, present, _, place⟩ := sound.settled id output found
          have same : decl.members.map state.image = decl.members := by
            refine (List.map_inj_left.mpr fun member listed => ?_).trans (List.map_id _)
            cases inside : input.class? member with
            | none => exact sound.onlyClasses.image_eq inside
            | some nested =>
                have held : input.Holds id member := ⟨decl, present, listed, by rw [inside]; rfl⟩
                exact ih member (ordered id decl present member listed)
                  fun inner path => free inner (.head held path)
          rw [free id .refl] at place
          dsimp only at place
          rw [if_pos same] at place
          rw [image_eq_of_lookup found, place]

/-- A class is its own image exactly if neither it nor a class in it is replaced. -/
theorem Sound.image_eq_iff (sound : Sound input replacements state) (before : input.Ordered)
    (settled : ∀ id, (input.class? id).isSome → (state.replaced.lookup id).isSome) {id : NodeId}
    (isClass : (input.class? id).isSome) :
    state.image id = id ↔ replacements.lookup id = none ∧
      ∀ inner, Relation.TransGen input.Holds id inner → replacements.lookup inner = none := by
  induction id using Nat.strong_induction_on with
  | _ id ih =>
      obtain ⟨output, found⟩ := Option.isSome_iff_exists.mp (settled id isClass)
      obtain ⟨decl, present, _, place⟩ := sound.settled id output found
      have known := SyntaxTree.lt_of_class? present
      have members : decl.members.map state.image = decl.members ↔
          ∀ inner, Relation.TransGen input.Holds id inner → replacements.lookup inner = none := by
        constructor
        · intro same inner path
          have own : ∀ member ∈ decl.members, state.image member = member :=
            List.map_inj_left.mp (same.trans (List.map_id _).symm)
          obtain ⟨member, ⟨holder, presentHolder, listed, inside⟩, below⟩ :=
            Relation.TransGen.head'_iff.mp path
          cases present.symm.trans presentHolder
          obtain ⟨stays, deeper⟩ :=
            (ih member (before id decl present member listed) inside).mp (own member listed)
          rcases Relation.reflTransGen_iff_eq_or_transGen.mp below with rfl | strictly
          · exact stays
          · exact deeper inner strictly
        · intro stay
          refine (List.map_inj_left.mpr fun member listed => ?_).trans (List.map_id _)
          cases inside : input.class? member with
          | none => exact sound.onlyClasses.image_eq inside
          | some nested =>
              have held : input.Holds id member := ⟨decl, present, listed, by rw [inside]; rfl⟩
              exact sound.image_eq_of_free before fun inner path =>
                stay inner (Relation.TransGen.head' held path)
      rw [image_eq_of_lookup found, ← members]
      cases chosen : replacements.lookup id with
      | some replacement =>
          rw [chosen] at place
          have different : output ≠ id := Nat.ne_of_gt (Nat.lt_of_lt_of_le known place.1)
          simp [different]
      | none =>
          rw [chosen] at place
          dsimp only at place
          split at place
          · rename_i same
            simp [place, same]
          · rename_i changed
            have different : output ≠ id := Nat.ne_of_gt (Nat.lt_of_lt_of_le known place.1)
            simp [different, changed]

theorem Sound.image_injective (sound : Sound input replacements state) {id other : NodeId}
    (known : id < input.nodes.size) (knownOther : other < input.nodes.size)
    (same : state.image id = state.image other) : id = other := by
  by_cases old : state.image id < input.nodes.size
  · have oldOther := old
    rw [same] at oldOther
    rw [← sound.eq_of_image_lt old, same, sound.eq_of_image_lt oldOther]
  · have looked : ∀ node, node < input.nodes.size → ¬ state.image node < input.nodes.size →
        state.replaced.lookup node = some (state.image node) := by
      intro node inside new
      cases found : state.replaced.lookup node with
      | none =>
          rw [image, found, Option.getD_none] at new
          exact absurd inside new
      | some output => rw [image_eq_of_lookup found]
    have second := looked other knownOther (by rwa [← same])
    rw [← same] at second
    exact sound.distinct id other _ (Nat.le_of_not_lt old) (looked id known old) second

end Rebuild

/-- What replaces an eligible class: its record, and what becomes of each member. -/
structure Replacement.For (replacement : Replacement) (tree : SyntaxTree) (id : NodeId)
    (decl : ClassDecl) (eligible : Eligible) : Prop where
  classified : tree.classify id = .ok (.eligible eligible)
  components : eligible.components.map Component.toRecordComponent =
    (tree.instanceFieldsOf decl).map FieldDecl.toComponent
  canonical : decl.members.find? (tree.hasCanonicalShape eligible.components) =
    some eligible.canonical
  retained : replacement.partition.retained =
    decl.members.filter fun member => !tree.provides eligible member
  elided : ∀ member, member ∈ replacement.partition.elided.map Prod.fst ↔
    member ∈ decl.members ∧ tree.provides eligible member = true
  record : ∀ image : NodeId → NodeId,
    { replacement.record with members := replacement.record.members.map image } =
      tree.recordOf image id decl eligible

namespace SyntaxTree

theorem exists_eligible_of_judged {tree : SyntaxTree} {id : NodeId} {replacement : Replacement}
    {decl : ClassDecl} (judged : (tree.judge id).verdict = .replace replacement)
    (present : tree.class? id = some decl) :
    ∃ eligible, replacement.For tree id decl eligible := by
  obtain ⟨members, eligible, read, found, partition, made⟩ := replacement_of_judged judged present
  obtain ⟨ids, _, _, nodes⟩ := resolveMembers_sound read
  have resolved : tree.resolveClass id = .ok (some ⟨id, decl, members⟩) :=
    (tree.resolveClass_eq_some_iff _ _).mpr ⟨decl, members, present, read, rfl⟩
  have components : eligible.components.map Component.toRecordComponent =
      (tree.instanceFieldsOf decl).map FieldDecl.toComponent := by
    rw [← instanceFields_eq ids nodes, ClassView.components_of_eligible found, List.map_map,
      List.map_map]
    rfl
  have retained := ClassView.retained_partition found ids nodes
  refine ⟨eligible, ?_, components, ClassView.find?_canonical found ids nodes, ?_, ?_, ?_⟩
  · rw [classify, resolved]
    exact congrArg Except.ok found
  · rw [partition, retained]
  · intro member
    rw [partition]
    exact ClassView.mem_elided_partition found ids nodes
  · intro image
    rw [made, partition, ClassView.toRecord, components, retained]
    rfl

theorem exists_eligible {tree : SyntaxTree} {id : NodeId} {replacement : Replacement}
    {decl : ClassDecl} (chosen : tree.replacements.lookup id = some replacement)
    (present : tree.class? id = some decl) :
    ∃ eligible, replacement.For tree id decl eligible :=
  exists_eligible_of_judged ((tree.lookup_replacements id replacement).mp chosen).2 present

/-- What the record of a class does without is a member of the class, but not a class. -/
theorem of_elided {tree : SyntaxTree} {id member : NodeId} {replacement : Replacement}
    {decl : ClassDecl} (judged : (tree.judge id).verdict = .replace replacement)
    (present : tree.class? id = some decl)
    (elided : member ∈ replacement.partition.elided.map Prod.fst) :
    member ∈ decl.members ∧ tree.class? member = none := by
  obtain ⟨eligible, made⟩ := exists_eligible_of_judged judged present
  obtain ⟨listed, provided⟩ := (made.elided member).mp elided
  exact ⟨listed, class?_of_provides made.canonical provided⟩

/-- What the record of a class keeps is a member of the class that it does not do without. -/
theorem of_retained {tree : SyntaxTree} {id member : NodeId} {replacement : Replacement}
    {decl : ClassDecl} (judged : (tree.judge id).verdict = .replace replacement)
    (present : tree.class? id = some decl) (kept : member ∈ replacement.partition.retained) :
    member ∈ decl.members ∧ member ∉ replacement.partition.elided.map Prod.fst := by
  obtain ⟨eligible, made⟩ := exists_eligible_of_judged judged present
  rw [made.retained] at kept
  obtain ⟨listed, notProvided⟩ := List.mem_filter.mp kept
  refine ⟨listed, fun elided => ?_⟩
  rw [((made.elided member).mp elided).2] at notProvided
  cases notProvided

/-- A conversion of some classes does without members of these classes, none of them a class, and
keeps the others. -/
theorem separate_of_alone {tree : SyntaxTree} {ids : List NodeId}
    (known : ∀ holder decl, tree.class? holder = some decl →
      ∀ member ∈ decl.members, member < tree.nodes.size)
    (alone : ∀ holder other decl otherDecl member, holder ∈ ids → other ∈ ids →
      tree.class? holder = some decl → tree.class? other = some otherDecl →
      member ∈ decl.members → member ∈ otherDecl.members → holder = other) :
    Rebuild.Separate tree (replacementsOf (ids.map tree.judge)) where
  known := known
  alone := by
    rintro holder other otherDecl member ⟨replacement, chosen, elided⟩ chosenOther presentOther
      listedOther
    obtain ⟨another, lookedOther⟩ := Option.isSome_iff_exists.mp chosenOther
    obtain ⟨isTarget, judged⟩ := (lookup_replacementsOf tree ids _ _).mp chosen
    obtain ⟨isTargetOther, _⟩ := (lookup_replacementsOf tree ids _ _).mp lookedOther
    obtain ⟨decl, present⟩ := class?_of_judged judged
    exact alone holder other decl otherDecl member isTarget isTargetOther present presentOther
      (of_elided judged present elided).1 listedOther
  retained holder replacement decl chosen present member kept := by
    have judged := ((lookup_replacementsOf tree ids _ _).mp chosen).2
    obtain ⟨listed, stays⟩ := of_retained judged present kept
    refine ⟨listed, ?_⟩
    rintro ⟨other, same, elided⟩
    cases chosen.symm.trans same
    exact stays elided
  elided holder decl member present := by
    rintro ⟨replacement, chosen, elided⟩
    exact of_elided ((lookup_replacementsOf tree ids _ _).mp chosen).2 present elided

/-- A class is converted exactly if it is replaced. -/
theorem not_converts_iff (tree : SyntaxTree) (id : NodeId) :
    (∀ record, ¬ tree.convertUnit.Converts id record) ↔ tree.replacements.lookup id = none := by
  constructor
  · intro stays
    cases chosen : tree.replacements.lookup id with
    | none => rfl
    | some replacement =>
        exact absurd ((tree.converts_iff id _).mpr ⟨by rw [chosen]; rfl, rfl⟩) (stays _)
  · intro chosen record converts
    have replaced := ((tree.converts_iff id record).mp converts).1
    rw [chosen] at replaced
    cases replaced

end SyntaxTree

namespace ParsedUnit

variable {source : Text} {tree : SyntaxTree} (unit : ParsedUnit source tree)

include unit

/-- A conversion meets every node. -/
theorem met_of_known {id : NodeId} (known : (tree.node? id).isSome) :
    Rebuild.Met tree tree.rebuild id := by
  have inside := SyntaxTree.lt_of_node?_isSome known
  -- on the distance to the end: a class stands after its members
  induction distance : tree.nodes.size - id using Nat.strong_induction_on generalizing id with
  | _ distance ih =>
      rcases unit.numbered.mem_ids_or_parent ⟨Nat.zero_le _, inside⟩ with
        listed | ⟨parent, held⟩
      · exact unit.met listed
      · obtain ⟨decl, present, member⟩ := unit.adds.stands.member_of_parent held
        have bound := SyntaxTree.lt_of_class? present
        have above := (unit.numbered.lt_parent held).2.1
        have closer : tree.nodes.size - parent < tree.nodes.size - id :=
          Nat.sub_lt_sub_left inside above
        have met := ih _ (distance ▸ closer) (by rw [SyntaxTree.node?_of_class? present]; rfl)
          bound rfl
        exact ⟨known, (unit.sound.node?_image_of_class met present).1 id member⟩

theorem met_of_class {id : NodeId} {decl : ClassDecl} (present : tree.class? id = some decl) :
    Rebuild.Met tree tree.rebuild id :=
  unit.met_of_known (by rw [SyntaxTree.node?_of_class? present]; rfl)

theorem image_eq_iff {id : NodeId} (isClass : (tree.class? id).isSome) :
    tree.rebuild.image id = id ↔ tree.replacements.lookup id = none ∧
      ∀ inner, Relation.TransGen tree.Holds id inner → tree.replacements.lookup inner = none := by
  refine unit.sound.image_eq_iff unit.forest.before (fun other inside => ?_) isClass
  obtain ⟨decl, present⟩ := Option.isSome_iff_exists.mp inside
  exact (unit.met_of_class present).settled inside

/-- The record of a class takes over members of the class alone, and drops no class. -/
theorem separate : Rebuild.Separate tree tree.replacements :=
  SyntaxTree.separate_of_alone
    (fun holder decl present member listed =>
      SyntaxTree.lt_of_node?_isSome (unit.known.members holder decl present member listed))
    fun _ _ _ _ _ _ _ present presentOther listed listedOther =>
      unit.numbered.parent_unique (unit.parent_of_member present listed)
        (unit.parent_of_member presentOther listedOther)

theorem carried : Rebuild.Carried tree tree.replacements tree.rebuild :=
  Rebuild.run_carried unit.acyclic (tree.membersKept tree.targets) unit.tidy unit.separate

theorem not_gone_of_class {id : NodeId} {decl : ClassDecl} (present : tree.class? id = some decl) :
    ¬ Rebuild.Gone tree.replacements tree.rebuild id := by
  rintro ⟨holder, _, replacement, chosen, elided⟩
  obtain ⟨holderDecl, holderPresent⟩ := SyntaxTree.class?_of_replacement chosen
  have isLeaf := (unit.separate.elided holder holderDecl _ holderPresent
    ⟨replacement, chosen, elided⟩).2
  rw [present] at isLeaf
  cases isLeaf

/-- The members whose comments are gone are those that the records provide. -/
theorem gone_iff_elides {member : NodeId} : Rebuild.Gone tree.replacements tree.rebuild member ↔
    tree.convertUnit.Elides tree member := by
  constructor
  · rintro ⟨holder, _, replacement, chosen, elided⟩
    obtain ⟨decl, present⟩ := SyntaxTree.class?_of_replacement chosen
    obtain ⟨eligible, made⟩ := SyntaxTree.exists_eligible chosen present
    obtain ⟨listed, provided⟩ := (made.elided member).mp elided
    exact ⟨holder, _, decl, eligible, (tree.converts_iff holder _).mpr ⟨by rw [chosen]; rfl, rfl⟩,
      present, made.classified, listed, provided⟩
  · rintro ⟨holder, record, decl, eligible, converts, present, classified, listed, provided⟩
    obtain ⟨replacement, chosen⟩ :=
      Option.isSome_iff_exists.mp ((tree.converts_iff holder record).mp converts).1
    obtain ⟨other, made⟩ := SyntaxTree.exists_eligible chosen present
    have same := made.classified
    rw [classified] at same
    cases same
    refine ⟨holder, (unit.met_of_class present).settled (by rw [present]; rfl), replacement, chosen,
      (made.elided member).mpr ⟨listed, provided⟩⟩

theorem records_of_converts {id record : NodeId} (converts : tree.convertUnit.Converts id record) :
    tree.convertUnit.Records tree tree.rebuild.image id record := by
  obtain ⟨replaced, rfl⟩ := (tree.converts_iff id record).mp converts
  obtain ⟨replacement, chosen⟩ := Option.isSome_iff_exists.mp replaced
  obtain ⟨decl, present⟩ := SyntaxTree.class?_of_replacement chosen
  obtain ⟨eligible, made⟩ := SyntaxTree.exists_eligible chosen present
  have place := (unit.sound.node?_image_of_class (unit.met_of_class present) present).2
  rw [chosen] at place
  refine ⟨decl, eligible, present, made.classified, made.components, made.canonical, ?_⟩
  rw [SyntaxTree.convertUnit_tree, SyntaxTree.record?, place, ← made.record]

/-- A class that stays is copied exactly if it has an image other than itself. -/
theorem copies_iff {id : NodeId} (stays : tree.replacements.lookup id = none) :
    tree.convertUnit.Copies tree id ↔ (tree.class? id).isSome ∧ tree.rebuild.image id ≠ id := by
  constructor
  · rintro ⟨_, inner, record, converts, path⟩
    have isClass : (tree.class? id).isSome := by
      obtain ⟨child, ⟨decl, present, _⟩, _⟩ := Relation.TransGen.head'_iff.mp path
      rw [present]
      rfl
    refine ⟨isClass, fun same => ?_⟩
    have replaced := ((tree.converts_iff inner record).mp converts).1
    rw [((unit.image_eq_iff isClass).mp same).2 inner path] at replaced
    cases replaced
  · rintro ⟨isClass, moved⟩
    refine ⟨(tree.not_converts_iff id).mpr stays, ?_⟩
    by_contra none
    refine moved ((unit.image_eq_iff isClass).mpr ⟨stays, fun inner path => ?_⟩)
    exact (tree.not_converts_iff inner).mp fun record converts =>
      none ⟨inner, record, converts, path⟩

theorem places : tree.convertUnit.Places tree tree.rebuild.image where
  types := congrArg CompilationUnit.types
    (Rebuild.run_sound unit.acyclic (tree.membersKept tree.targets)).2.1
  nodes := unit.sound.nodes
  converted id record converts :=
    ⟨((tree.converts_iff id record).mp converts).2.symm,
      (SyntaxTree.record_of_converts converts).2.1, unit.records_of_converts converts⟩
  copied id copies := by
    have stays := (tree.not_converts_iff id).mp copies.1
    obtain ⟨isClass, moved⟩ := (unit.copies_iff stays).mp copies
    obtain ⟨decl, present⟩ := Option.isSome_iff_exists.mp isClass
    have place := (unit.sound.node?_image_of_class (unit.met_of_class present) present).2
    rw [stays] at place
    refine ⟨Nat.le_of_not_lt fun old => moved (unit.sound.eq_of_image_lt old), decl, present, ?_⟩
    exact SyntaxTree.class?_of_node? place
  kept id notConverted notCopied := by
    have stays := (tree.not_converts_iff id).mp notConverted
    cases present : tree.class? id with
    | none => exact unit.sound.onlyClasses.image_eq present
    | some decl =>
        by_contra moved
        exact notCopied ((unit.copies_iff stays).mpr ⟨by rw [present]; rfl, moved⟩)
  distinct _ _ known knownOther := unit.sound.image_injective known knownOther
  comments id known stays :=
    unit.carried.kept id known fun gone => stays (unit.gone_iff_elides.mp gone)
  elided id elided := unit.carried.gone id (unit.gone_iff_elides.mpr elided)

end ParsedUnit

/-- The tree of a converted source is the image of its tree: every converted class has its record in
its place, every class that holds a converted one has a copy in its place, and other nodes stay. The
comments of a node are with what takes its place, but members that a record provides lose theirs. -/
theorem SyntaxTree.places_convertUnit {source : Text} {tree : SyntaxTree}
    (parsed : parse source = .ok tree) : ∃ image, tree.convertUnit.Places tree image := by
  obtain ⟨unit⟩ := ParsedUnit.exists_of_parse parsed
  exact ⟨tree.rebuild.image, unit.places⟩

/-- A class that stays and holds a class that becomes a record, with comments in both. -/
def commentedPoint : Text :=
  "class A{/*a*/static class P{private final int x;/*b*/P(int x){this.x=x;}/*c*/int y(){return 0;}}}"
    |>.toList

theorem exists_commentedPoint :
    ∃ tree, parse commentedPoint = .ok tree ∧ tree.isEligible 3 = true :=
  exists_ok_of_any (show (parse commentedPoint).toOption.any (fun tree => tree.isEligible 3) = true
    by decide +kernel)

theorem SyntaxTree.commentedPoint_places_convertUnit :
    ∃ tree image, parse commentedPoint = .ok tree ∧ tree.isEligible 3 = true ∧
      tree.convertUnit.Places tree image := by
  obtain ⟨tree, parsed, eligible⟩ := exists_commentedPoint
  obtain ⟨image, places⟩ := places_convertUnit parsed
  exact ⟨tree, image, parsed, eligible, places⟩

end JavaRecords
