import JavaRecords.Proofs.Conversion.Untouched

set_option autoImplicit false

namespace JavaRecords

namespace SyntaxTree

/-- An id that a conversion considers where it is listed: a class, or an id that no node has. -/
def Considered (tree : SyntaxTree) (id : NodeId) : Prop :=
  (tree.class? id).isSome ∨ tree.node? id = none

def staticMembers (tree : SyntaxTree) (id : NodeId) : List NodeId :=
  ((tree.class? id).map tree.staticMemberClasses).getD []

/-- The ids that `pending` leads to through static member classes are `listed`, in pre-order: each
id where it is met first, and right after it what its own member classes lead to. The ids in `seen`
were met before. -/
inductive Preorder (tree : SyntaxTree) : (seen pending listed : List NodeId) → Prop
  | nil (seen : List NodeId) : Preorder tree seen [] []
  | skip {seen rest listed : List NodeId} {id : NodeId}
      (passed : id ∈ seen ∨ ¬ tree.Considered id) (others : Preorder tree seen rest listed) :
      Preorder tree seen (id :: rest) listed
  | visit {seen rest inner later : List NodeId} {id : NodeId} (fresh : id ∉ seen)
      (considered : tree.Considered id)
      (below : Preorder tree (id :: seen) (tree.staticMembers id) inner)
      (others : Preorder tree (inner.reverse ++ id :: seen) rest later) :
      Preorder tree seen (id :: rest) (id :: (inner ++ later))

variable {tree : SyntaxTree}

/-- There is only one pre-order. -/
theorem Preorder.unique {seen pending listed others : List NodeId}
    (order : tree.Preorder seen pending listed) (other : tree.Preorder seen pending others) :
    listed = others := by
  induction order generalizing others with
  | nil => cases other; rfl
  | skip passed _ ih =>
      cases other with
      | skip _ rest => exact ih rest
      | visit fresh considered _ _ =>
          rcases passed with met | unconsidered
          · exact absurd met fresh
          · exact absurd considered unconsidered
  | visit fresh considered _ _ ihBelow ihRest =>
      cases other with
      | skip passed _ =>
          rcases passed with met | unconsidered
          · exact absurd met fresh
          · exact absurd considered unconsidered
      | visit _ _ below rest =>
          have same := ihBelow below
          subst same
          rw [ihRest rest]

/-- What two lists lead to one after the other. -/
theorem Preorder.split {seen front back listed : List NodeId}
    (order : tree.Preorder seen (front ++ back) listed) :
    ∃ first second, listed = first ++ second ∧ tree.Preorder seen front first ∧
      tree.Preorder (first.reverse ++ seen) back second := by
  induction front generalizing seen listed with
  | nil => exact ⟨[], listed, rfl, .nil seen, order⟩
  | cons id front ih =>
      rw [List.cons_append] at order
      cases order with
      | skip passed others =>
          obtain ⟨first, second, rfl, here, after⟩ := ih others
          exact ⟨first, second, rfl, .skip passed here, after⟩
      | visit fresh considered below others =>
          rename_i inner later
          obtain ⟨first, second, rfl, here, after⟩ := ih others
          refine ⟨id :: (inner ++ first), second, by simp, .visit fresh considered below here, ?_⟩
          simpa using after

theorem Preorder.nodup {seen pending listed : List NodeId}
    (order : tree.Preorder seen pending listed) :
    listed.Nodup ∧ ∀ id ∈ listed, id ∉ seen := by
  induction order with
  | nil => exact ⟨List.nodup_nil, fun _ listed => absurd listed List.not_mem_nil⟩
  | skip _ _ ih => exact ih
  | @visit seen rest inner later id fresh _ _ _ ihBelow ihRest =>
      obtain ⟨distinctBelow, newBelow⟩ := ihBelow
      obtain ⟨distinctRest, newRest⟩ := ihRest
      have apart : id ∉ inner ++ later := by
        intro listed
        rcases List.mem_append.mp listed with early | late
        · exact newBelow id early List.mem_cons_self
        · exact newRest id late (by simp)
      refine ⟨List.nodup_cons.mpr ⟨apart, List.Nodup.append distinctBelow distinctRest ?_⟩, ?_⟩
      · intro other early late
        exact newRest other late (by simp [early])
      · intro other listed met
        rcases List.mem_cons.mp listed with rfl | behind
        · exact fresh met
        · rcases List.mem_append.mp behind with early | late
          · exact newBelow other early (List.mem_cons_of_mem _ met)
          · exact newRest other late (by simp [met])

/-- The work list lists ids in pre-order. -/
theorem preorder_targetsFrom (tree : SyntaxTree) (seen pending : List NodeId) :
    tree.Preorder seen pending (tree.targetsFrom seen pending) := by
  fun_induction targetsFrom tree seen pending with
  | case1 seen => exact .nil seen
  | case2 seen id rest met ih => exact .skip (Or.inl (List.contains_iff_mem.mp met)) ih
  | case3 seen id rest unmet unknown ih =>
      have none : tree.class? id = none := by simp only [class?, unknown]
      have below : tree.Preorder (id :: seen) (tree.staticMembers id) [] := by
        simp only [staticMembers, none, Option.map_none, Option.getD_none]
        exact .nil _
      exact .visit (fun met => unmet (List.contains_iff_mem.mpr met)) (Or.inr unknown) below ih
  | case4 seen id rest unmet node known other ih =>
      refine .skip (Or.inr ?_) ih
      rintro (isClass | unknown)
      · rw [other] at isClass
        cases isClass
      · rw [known] at unknown
        cases unknown
  | case5 seen id rest unmet node known decl present ih =>
      have members : tree.staticMembers id = tree.staticMemberClasses decl := by
        simp only [staticMembers, present, Option.map_some, Option.getD_some]
      obtain ⟨inner, later, joined, below, others⟩ := ih.split
      rw [← members] at below
      rw [joined]
      exact .visit (fun met => unmet (List.contains_iff_mem.mpr met))
        (Or.inl (by rw [present]; rfl)) below others

/-- What a conversion of the unit reports on: the unknown ids among the types, and the classes that
the types lead to through static member classes. -/
def IsTarget (tree : SyntaxTree) (id : NodeId) : Prop :=
  (id ∈ tree.unit.types ∧ tree.node? id = none) ∨
    ((tree.class? id).isSome ∧
      ∃ start ∈ tree.unit.types, Relation.ReflTransGen tree.HoldsStatic start id)

theorem mem_targets_iff_isTarget (tree : SyntaxTree) (id : NodeId) :
    id ∈ tree.targets ↔ tree.IsTarget id := by
  rw [mem_targets_iff]
  constructor
  · rintro ⟨⟨start, listed, path⟩, isClass | unknown⟩
    · exact Or.inr ⟨isClass, start, listed, path⟩
    · -- an unknown id is no member class, so it is the start of its path
      rcases Relation.ReflTransGen.cases_tail path with rfl | ⟨holder, _, held⟩
      · exact Or.inl ⟨listed, unknown⟩
      · obtain ⟨decl, present⟩ :=
          Option.isSome_iff_exists.mp (class?_isSome_of_holdsStatic held)
        rw [node?_of_class? present] at unknown
        cases unknown
  · rintro (⟨listed, unknown⟩ | ⟨isClass, start, listed, path⟩)
    · exact ⟨⟨id, listed, .refl⟩, Or.inr unknown⟩
    · exact ⟨⟨start, listed, path⟩, Or.inl isClass⟩

/-- What is decided about a class is what the classifier says. -/
theorem verdict_judge (tree : SyntaxTree) (id : NodeId) :
    match tree.classify id with
    | .error violation => (tree.judge id).verdict = .failed violation
    | .ok (.ineligible reason) => (tree.judge id).verdict = .unchanged reason
    | .ok (.eligible eligible) => ∃ view, tree.resolveClass id = .ok (some view) ∧
        (tree.judge id).verdict = .replace
          ⟨view.toRecord eligible (view.partition eligible), view.partition eligible⟩ := by
  unfold classify judge ClassView.classify
  cases read : tree.resolveClass id with
  | error violation => simp [Except.map]
  | ok view? =>
      cases view? with
      | none => simp [Except.map]
      | some view =>
          cases classified : view.classifyWithDiagnostics with
          | mk classification notes =>
              cases classification <;> simp [Except.map, classified]

end SyntaxTree

theorem Partition.length_elided_add_retained (partition : Partition) :
    partition.elided.length + partition.retained.length = partition.dispositions.length := by
  unfold elided retained
  induction partition.dispositions with
  | nil => rfl
  | cons entry rest ih =>
      obtain ⟨id, disposition⟩ := entry
      rw [List.length_map] at ih ⊢
      cases disposition with
      | retain =>
          simp only [List.filterMap_cons, List.filter_cons, beq_self_eq_true, ↓reduceIte,
            List.length_cons]
          omega
      | elide reason =>
          have other : (Disposition.elide reason == .retain) = false := rfl
          simp only [List.filterMap_cons, List.filter_cons, other, Bool.false_eq_true, ↓reduceIte,
            List.length_cons]
          omega

/-- A report says what the classifier says: it is on a converted class exactly if the class is
eligible, and gives the reason or the violation otherwise. -/
structure ClassReport.Agrees (tree : SyntaxTree) (report : ClassReport) : Prop where
  converted_iff : report.outcome.isConverted = true ↔
    ∃ eligible, tree.classify report.id = .ok (.eligible eligible)
  converted : ∀ record components elided retained eligible,
    report.outcome = .converted record components elided retained →
    tree.classify report.id = .ok (.eligible eligible) →
    components = eligible.components.map Component.name ∧
      ∃ decl, tree.class? report.id = some decl ∧ elided + retained = decl.members.length
  unchanged_iff : ∀ reason, report.outcome = .unchanged reason ↔
    tree.classify report.id = .ok (.ineligible reason)
  failed_iff : ∀ violation, report.outcome = .failed violation ↔
    tree.classify report.id = .error violation

namespace SyntaxTree

/-- What is reported on an eligible class. -/
theorem converted_of_view {tree : SyntaxTree} {id : NodeId} {view : ClassView}
    (found : tree.resolveClass id = .ok (some view)) (eligible : Eligible) :
    ∃ decl, tree.class? id = some decl ∧
      ((view.toRecord eligible (view.partition eligible)).components.map RecordComponent.name =
        eligible.components.map Component.name) ∧
      (view.partition eligible).elided.length + (view.partition eligible).retained.length =
        decl.members.length := by
  obtain ⟨decl, members, present, read, rfl⟩ := (tree.resolveClass_eq_some_iff _ _).mp found
  obtain ⟨ids, _⟩ := resolveMembers_sound read
  refine ⟨decl, present, ?_, ?_⟩
  · rw [ClassView.toRecord, List.map_map]
    rfl
  · rw [Partition.length_elided_add_retained, ← ids]
    simp [ClassView.partition]

/-- A class that is to be replaced is settled by the conversion. -/
theorem exists_output {tree : SyntaxTree} {id : NodeId} {replacement : Replacement}
    (chosen : tree.replacements.lookup id = some replacement) :
    ∃ output, tree.rebuild.replaced.lookup id = some output := by
  obtain ⟨decl, present⟩ := class?_of_replacement chosen
  exact Option.isSome_iff_exists.mp (Rebuild.run_settles tree tree.replacements id
    (List.mem_map.mpr ⟨(id, replacement), mem_of_lookup chosen, rfl⟩) (by rw [present]; rfl))

theorem exists_outcome {tree : SyntaxTree} {id : NodeId} (target : id ∈ tree.targets) :
    ∃ outcome, tree.rebuild.outcome? (tree.judge id) = some outcome ∧
      (tree.report (tree.judge id) outcome).Agrees tree := by
  have verdict := tree.verdict_judge id
  have own : ∀ outcome, (tree.report (tree.judge id) outcome).id = id := fun _ => tree.judge_id id
  cases classified : tree.classify id with
  | error violation =>
      rw [classified] at verdict
      dsimp only at verdict
      refine ⟨.failed violation, by simp only [Rebuild.outcome?, verdict], ?_⟩
      constructor <;> simp [report, tree.judge_id, classified, ClassOutcome.isConverted]
  | ok classification =>
      rw [classified] at verdict
      cases classification with
      | ineligible reason =>
          dsimp only at verdict
          refine ⟨.unchanged reason, by simp only [Rebuild.outcome?, verdict], ?_⟩
          constructor <;> simp [report, tree.judge_id, classified, ClassOutcome.isConverted]
      | eligible eligible =>
          obtain ⟨view, found, verdict⟩ := verdict
          obtain ⟨decl, present, names, counts⟩ := converted_of_view found eligible
          obtain ⟨output, looked⟩ :=
            exists_output ((tree.lookup_replacements _ _).mpr ⟨target, verdict⟩)
          refine ⟨.converted output (eligible.components.map Component.name)
            (view.partition eligible).elided.length (view.partition eligible).retained.length,
            ?_, ?_⟩
          · simp only [Rebuild.outcome?, verdict, tree.judge_id, looked, Option.map_some, names]
          · refine ⟨?_, ?_, ?_, ?_⟩
            · simp [report, tree.judge_id, classified, ClassOutcome.isConverted]
            · intro record components elided retained other outcome again
              rw [own, classified] at again
              cases again
              cases outcome
              rw [own]
              exact ⟨rfl, decl, present, counts⟩
            · simp [report, tree.judge_id, classified]
            · simp [report, tree.judge_id, classified]

/-- The reports are on the targets, in their order. -/
theorem reports_convertUnit (tree : SyntaxTree) :
    tree.convertUnit.reports.map ClassReport.id = tree.targets ∧
      ∀ report ∈ tree.convertUnit.reports, report.Agrees tree := by
  have all : ∀ ids : List NodeId, (∀ id ∈ ids, id ∈ tree.targets) →
      let reports : List ClassReport := (ids.map tree.judge).filterMap fun entry =>
        (tree.rebuild.outcome? entry).map (tree.report entry)
      reports.map ClassReport.id = ids ∧ ∀ report ∈ reports, report.Agrees tree := by
    intro ids
    induction ids with
    | nil => exact fun _ => ⟨rfl, fun _ listed => absurd listed List.not_mem_nil⟩
    | cons id rest ih =>
        intro targets
        obtain ⟨ids, agree⟩ := ih fun other listed => targets other (List.mem_cons_of_mem _ listed)
        obtain ⟨outcome, decided, agrees⟩ := exists_outcome (targets id List.mem_cons_self)
        dsimp only
        rw [List.map_cons, List.filterMap_cons, decided]
        refine ⟨?_, ?_⟩
        · rw [Option.map_some, List.map_cons, ids]
          exact congrArg (· :: rest) (tree.judge_id id)
        · intro report listed
          rcases List.mem_cons.mp listed with rfl | later
          · exact agrees
          · exact agree report later
  exact all tree.targets fun _ listed => listed

end SyntaxTree

/-- What a conversion adds to a tree: new nodes after those of the tree, which are the records of
the classes reported as converted, and copies of other classes with other members. No two of them
come from one class. -/
structure UnitConversion.Appends (conversion : UnitConversion) (tree : SyntaxTree) : Prop where
  nodes : tree.nodes.toList <+: conversion.tree.nodes.toList
  records : ∀ id record, conversion.Converts id record → tree.nodes.size ≤ record ∧
    ∃ decl, conversion.tree.record? record = some decl ∧ decl.origin = id
  distinct : ∀ id other record, conversion.Converts id record → conversion.Converts other record →
    id = other
  origins : ∃ origin : NodeId → NodeId,
    (∀ new other, tree.nodes.size ≤ new → new < conversion.tree.nodes.size →
      tree.nodes.size ≤ other → other < conversion.tree.nodes.size →
      origin new = origin other → new = other) ∧
    ∀ new, tree.nodes.size ≤ new → new < conversion.tree.nodes.size →
      conversion.Converts (origin new) new ∨
      ((∀ record, ¬ conversion.Converts (origin new) record) ∧ ∃ decl members,
        tree.class? (origin new) = some decl ∧
        conversion.tree.class? new = some { decl with members })
  package : conversion.tree.unit.package = tree.unit.package
  imports : conversion.tree.unit.imports = tree.unit.imports
  types : conversion.tree.unit.types.length = tree.unit.types.length

namespace SyntaxTree

theorem starts_of_node?_eq {tree other : SyntaxTree}
    (same : ∀ id, id < tree.nodes.size → other.node? id = tree.node? id) :
    tree.nodes.toList <+: other.nodes.toList := by
  rw [List.prefix_iff_eq_take]
  apply List.ext_getElem?
  intro index
  rw [List.getElem?_take]
  split
  · rename_i known
    have := same index (by simpa using known)
    simpa [node?] using this.symm
  · rename_i outside
    simpa using outside

/-- What stands in the place of a class that is reported as converted. -/
theorem record_of_converts {tree : SyntaxTree} {id record : NodeId}
    (converts : tree.convertUnit.Converts id record) :
    tree.rebuild.replaced.lookup id = some record ∧ tree.nodes.size ≤ record ∧
      ∃ decl, tree.convertUnit.tree.record? record = some decl ∧ decl.origin = id := by
  obtain ⟨isReplaced, rfl⟩ := (tree.converts_iff _ _).mp converts
  obtain ⟨replacement, chosen⟩ := Option.isSome_iff_exists.mp isReplaced
  obtain ⟨output, looked⟩ := exists_output chosen
  rw [Rebuild.image_eq_of_lookup looked]
  obtain ⟨decl, present, ⟨stays, _⟩ | ⟨new, members, node⟩⟩ :=
    (Rebuild.run_grown tree tree.replacements).taken id output looked
  · rw [chosen] at stays
    cases stays
  · rw [chosen] at node
    obtain ⟨_, _, _, _, _, made⟩ := replacement_of_class chosen present
    refine ⟨looked, new, { replacement.record with members }, ?_, ?_⟩
    · rw [convertUnit_tree, record?, show tree.rebuild.tree.node? output = _ from node]
      rfl
    · rw [made]
      rfl

theorem appends_convertUnit (tree : SyntaxTree) : tree.convertUnit.Appends tree := by
  have grown := Rebuild.run_grown tree tree.replacements
  have origins : ∀ new, ∃ id, tree.nodes.size ≤ new → new < tree.convertUnit.tree.nodes.size →
      tree.rebuild.replaced.lookup id = some new := by
    intro new
    by_cases added : tree.nodes.size ≤ new ∧ new < tree.convertUnit.tree.nodes.size
    · obtain ⟨id, found⟩ := grown.origin new added.1 added.2
      exact ⟨id, fun _ _ => found⟩
    · exact ⟨0, fun large inside => absurd ⟨large, inside⟩ added⟩
  choose origin found using origins
  obtain ⟨types, unit, length⟩ := Rebuild.run_unit tree tree.replacements
  have unitSame : tree.convertUnit.tree.unit = { tree.unit with types } := unit
  refine ⟨starts_of_node?_eq grown.nodes, ?_, ?_, ⟨origin, ?_, ?_⟩, ?_, ?_, ?_⟩
  · intro id record converts
    exact (record_of_converts converts).2
  · intro id other record converts convertsOther
    obtain ⟨looked, new, _⟩ := record_of_converts converts
    exact grown.distinct id other record new looked (record_of_converts convertsOther).1
  · intro new other large inside largeOther insideOther same
    have first := found new large inside
    rw [same, found other largeOther insideOther] at first
    exact (Option.some.inj first).symm
  · intro new large inside
    have looked := found new large inside
    obtain ⟨decl, present, ⟨_, same⟩ | ⟨_, members, node⟩⟩ := grown.taken _ _ looked
    · -- a class that is its own image is no new node
      have known := lt_of_class? present
      rw [← same] at known
      exact absurd known (Nat.not_lt.mpr large)
    · cases chosen : tree.replacements.lookup (origin new) with
      | some replacement =>
          refine Or.inl ((tree.converts_iff _ _).mpr ⟨by rw [chosen]; rfl, ?_⟩)
          exact (Rebuild.image_eq_of_lookup looked).symm
      | none =>
          refine Or.inr ⟨?_, decl, members, present, ?_⟩
          · intro record converts
            have isReplaced := ((tree.converts_iff _ _).mp converts).1
            rw [chosen] at isReplaced
            cases isReplaced
          · rw [chosen] at node
            exact class?_of_node? node
  · rw [unitSame]
  · rw [unitSame]
  · rw [unitSame]
    exact length

/-- A conversion reports on every target once, in pre-order, what the classifier says about it, and
only adds nodes to the tree. -/
theorem reports_and_appends_convertUnit (tree : SyntaxTree) :
    (∀ listed, tree.Preorder [] tree.unit.types listed ↔
      tree.convertUnit.reports.map ClassReport.id = listed) ∧
    (tree.convertUnit.reports.map ClassReport.id).Nodup ∧
    (∀ id, id ∈ tree.convertUnit.reports.map ClassReport.id ↔ tree.IsTarget id) ∧
    (∀ report ∈ tree.convertUnit.reports, report.Agrees tree) ∧
    tree.convertUnit.Appends tree := by
  obtain ⟨ids, agree⟩ := tree.reports_convertUnit
  have order := tree.preorder_targetsFrom [] tree.unit.types
  rw [ids]
  refine ⟨fun listed => ⟨fun other => order.unique other, ?_⟩, order.nodup.1,
    tree.mem_targets_iff_isTarget, agree, tree.appends_convertUnit⟩
  rintro rfl
  exact order

end SyntaxTree

end JavaRecords
