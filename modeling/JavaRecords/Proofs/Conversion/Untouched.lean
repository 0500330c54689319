import JavaRecords.Proofs.Conversion.Appended
import JavaRecords.Proofs.Conversion.Parsed
import JavaRecords.Proofs.Print.Patches
import Mathlib.Data.List.Nodup
import Mathlib.Data.List.Pairwise

set_option autoImplicit false

namespace JavaRecords

def UnitConversion.Converts (conversion : UnitConversion) (id record : NodeId) : Prop :=
  ∃ report ∈ conversion.reports, report.id = id ∧ ∃ components elided retained,
    report.outcome = .converted record components elided retained

/-- A class that is reported as converted and does not stand in another one. -/
def UnitConversion.Outermost (conversion : UnitConversion) (tree : SyntaxTree)
    (id record : NodeId) : Prop :=
  conversion.Converts id record ∧
    ∀ other another, conversion.Converts other another → ¬ Relation.TransGen tree.Holds other id

theorem mem_of_lookup {α : Type} {entries : List (NodeId × α)} {id : NodeId} {value : α}
    (found : List.lookup id entries = some value) : (id, value) ∈ entries := by
  obtain ⟨front, back, split, _⟩ := List.lookup_eq_some_iff.mp found
  rw [split]
  exact List.mem_append_right _ List.mem_cons_self

/-- The classes that a conversion of some classes reports as converted are those that
it replaces. -/
theorem SyntaxTree.converts_convert_iff (tree : SyntaxTree) (ids : List NodeId)
    (id record : NodeId) :
    (tree.convert ids).Converts id record ↔
      ((replacementsOf (ids.map tree.judge)).lookup id).isSome ∧
        record = (tree.rebuildOf ids).image id := by
  have settled := Rebuild.run_settles tree (replacementsOf (ids.map tree.judge))
  constructor
  · rintro ⟨report, listed, rfl, components, elided, retained, outcome⟩
    obtain ⟨judged, member, decided⟩ := List.mem_filterMap.mp listed
    obtain ⟨target, isTarget, rfl⟩ := List.mem_map.mp member
    obtain ⟨found, known, rfl⟩ := Option.map_eq_some_iff.mp decided
    simp only [report] at outcome ⊢
    subst outcome
    unfold Rebuild.outcome? at known
    cases verdict : (tree.judge target).verdict with
    | unchanged reason =>
        rw [verdict] at known
        cases known
    | failed violation =>
        rw [verdict] at known
        cases known
    | replace replacement =>
        rw [verdict] at known
        obtain ⟨output, looked, same⟩ := Option.map_eq_some_iff.mp known
        rw [tree.judge_id] at looked ⊢
        cases same
        have chosen := (lookup_replacementsOf tree ids target replacement).mpr ⟨isTarget, verdict⟩
        exact ⟨by rw [chosen]; rfl, (Rebuild.image_eq_of_lookup looked).symm⟩
  · rintro ⟨isReplaced, rfl⟩
    obtain ⟨replacement, chosen⟩ := Option.isSome_iff_exists.mp isReplaced
    obtain ⟨isTarget, verdict⟩ := (lookup_replacementsOf tree ids id replacement).mp chosen
    obtain ⟨decl, present⟩ := SyntaxTree.class?_of_judged verdict
    have key : id ∈ (replacementsOf (ids.map tree.judge)).map Prod.fst :=
      List.mem_map.mpr ⟨(id, replacement), mem_of_lookup chosen, rfl⟩
    obtain ⟨output, looked⟩ :=
      Option.isSome_iff_exists.mp (settled id key (by rw [present]; rfl))
    have same : (tree.rebuildOf ids).replaced.lookup id = some output := looked
    have known : (tree.rebuildOf ids).outcome? (tree.judge id) = some (.converted output
        (replacement.record.components.map RecordComponent.name)
        replacement.partition.elided.length replacement.partition.retained.length) := by
      unfold Rebuild.outcome?
      rw [verdict, tree.judge_id]
      dsimp only
      rw [same]
      rfl
    rw [Rebuild.image_eq_of_lookup same]
    exact ⟨_, List.mem_filterMap.mpr ⟨tree.judge id, List.mem_map_of_mem isTarget,
      Option.map_eq_some_iff.mpr ⟨_, known, rfl⟩⟩, tree.judge_id id, _, _, _, rfl⟩

/-- The classes that are reported as converted are those that are replaced. -/
theorem SyntaxTree.converts_iff (tree : SyntaxTree) (id record : NodeId) :
    tree.convertUnit.Converts id record ↔
      (tree.replacements.lookup id).isSome ∧ record = tree.rebuild.image id :=
  tree.converts_convert_iff tree.targets id record

namespace Outline

/-- A class of the outline, at any depth, and a member of it. -/
def Parent : Outline → NodeId → NodeId → Prop
  | nil, _, _ => False
  | leaf _ _ rest, parent, child => rest.Parent parent child
  | type site _ members rest, parent, child =>
      (parent = site.id ∧ child ∈ members.ids) ∨ members.Parent parent child ∨
        rest.Parent parent child

variable {outline : Outline} {low high : Nat} {parent child : NodeId}

theorem Numbered.lt_parent (numbered : outline.Numbered low high)
    (held : outline.Parent parent child) : low ≤ child ∧ child < parent ∧ parent < high := by
  induction outline generalizing low high with
  | nil => cases held
  | leaf site node rest ih =>
      have inside := ih numbered.2 held
      exact ⟨Nat.le_of_succ_le inside.1, inside.2⟩
  | type site shape members rest ihMembers ihRest =>
      obtain ⟨numberedMembers, numberedRest⟩ := numbered
      have last : site.id < high := Nat.lt_of_lt_of_le (Nat.lt_succ_self _) numberedRest.le
      rcases held with ⟨rfl, listed⟩ | inner | later
      · have inside := numberedMembers.mem_ids listed
        exact ⟨inside.1, inside.2, last⟩
      · have inside := ihMembers numberedMembers inner
        exact ⟨inside.1, inside.2.1, Nat.lt_trans inside.2.2 last⟩
      · have inside := ihRest numberedRest later
        exact ⟨Nat.le_trans numberedMembers.le (Nat.le_of_succ_le inside.1), inside.2⟩

/-- A member of a class of the outline is not one of its outermost declarations. -/
theorem Numbered.not_mem_ids (numbered : outline.Numbered low high)
    (held : outline.Parent parent child) : child ∉ outline.ids := by
  induction outline generalizing low high with
  | nil => cases held
  | leaf site node rest ih =>
      intro listed
      have inside := numbered.2.lt_parent held
      rcases List.mem_cons.mp listed with rfl | later
      · rw [numbered.1] at inside
        exact Nat.lt_irrefl _ inside.1
      · exact ih numbered.2 held later
  | type site shape members rest _ ihRest =>
      intro listed
      obtain ⟨numberedMembers, numberedRest⟩ := numbered
      -- members stand before their class, and what comes after it has higher ids
      have before : child < site.id → False := by
        intro below
        rcases List.mem_cons.mp listed with rfl | later
        · exact Nat.lt_irrefl _ below
        · exact Nat.lt_irrefl _ (Nat.lt_trans below (numberedRest.mem_ids later).1)
      rcases held with ⟨rfl, member⟩ | inner | later
      · exact before (numberedMembers.mem_ids member).2
      · have inside := numberedMembers.lt_parent inner
        exact before (Nat.lt_trans inside.2.1 inside.2.2)
      · rcases List.mem_cons.mp listed with rfl | behind
        · exact Nat.lt_irrefl _ (numberedRest.lt_parent later).1
        · exact ihRest numberedRest later behind

/-- A declaration is a member of one class only. -/
theorem Numbered.parent_unique (numbered : outline.Numbered low high) {other : NodeId}
    (held : outline.Parent parent child) (heldOther : outline.Parent other child) :
    parent = other := by
  induction outline generalizing low high with
  | nil => cases held
  | leaf site node rest ih => exact ih numbered.2 held heldOther
  | type site shape members rest ihMembers ihRest =>
      obtain ⟨numberedMembers, numberedRest⟩ := numbered
      have behind : rest.Parent parent child ∨ rest.Parent other child → site.id < child := by
        rintro (later | later)
        · exact (numberedRest.lt_parent later).1
        · exact (numberedRest.lt_parent later).1
      have before : (child ∈ members.ids ∨ members.Parent parent child ∨
          members.Parent other child) → child < site.id := by
        rintro (member | inner | inner)
        · exact (numberedMembers.mem_ids member).2
        · exact Nat.lt_trans (numberedMembers.lt_parent inner).2.1
            (numberedMembers.lt_parent inner).2.2
        · exact Nat.lt_trans (numberedMembers.lt_parent inner).2.1
            (numberedMembers.lt_parent inner).2.2
      have apart : child < site.id → ¬ site.id < child := fun below above =>
        Nat.lt_irrefl _ (Nat.lt_trans below above)
      rcases held with ⟨rfl, member⟩ | inner | later <;>
        rcases heldOther with ⟨rfl, memberOther⟩ | innerOther | laterOther
      · rfl
      · exact absurd member (numberedMembers.not_mem_ids innerOther)
      · exact absurd (behind (Or.inr laterOther)) (apart (before (Or.inl member)))
      · exact absurd memberOther (numberedMembers.not_mem_ids inner)
      · exact ihMembers numberedMembers inner innerOther
      · exact absurd (behind (Or.inr laterOther)) (apart (before (Or.inr (Or.inl inner))))
      · exact absurd (behind (Or.inl later)) (apart (before (Or.inl memberOther)))
      · exact absurd (behind (Or.inl later)) (apart (before (Or.inr (Or.inr innerOther))))
      · exact ihRest numberedRest later laterOther

theorem Stands.parent_of_member {source : Text} {tree : SyntaxTree}
    (stands : outline.Stands source tree) (numbered : outline.Numbered low high)
    (plain : outline.PlainLeaves source) (inside : low ≤ parent ∧ parent < high) {decl : ClassDecl}
    (present : tree.class? parent = some decl) (listed : child ∈ decl.members) :
    outline.Parent parent child := by
  induction outline generalizing low high with
  | nil =>
      have same : low = high := numbered
      exact absurd (Nat.lt_of_le_of_lt inside.1 inside.2) (by rw [same]; exact Nat.lt_irrefl _)
  | leaf site node rest ih =>
      obtain ⟨rfl, numberedRest⟩ := numbered
      by_cases same : parent = site.id
      · rw [same, plain.1.class?_eq_none stands.1] at present
        cases present
      · exact ih stands.2.2 numberedRest plain.2
          ⟨Nat.lt_of_le_of_ne inside.1 (Ne.symm same), inside.2⟩
  | type site shape members rest ihMembers ihRest =>
      obtain ⟨⟨package, found⟩, _, standsMembers, standsRest⟩ := stands
      obtain ⟨numberedMembers, numberedRest⟩ := numbered
      rcases Nat.lt_trichotomy parent site.id with before | rfl | behind
      · exact Or.inr (Or.inl (ihMembers standsMembers numberedMembers plain.1 ⟨inside.1, before⟩))
      · rw [SyntaxTree.class?_of_node? found] at present
        cases present
        exact Or.inl ⟨rfl, listed⟩
      · exact Or.inr (Or.inr (ihRest standsRest numberedRest plain.2 ⟨behind, inside.2⟩))

end Outline

namespace ParsedUnit

variable {source : Text} {tree : SyntaxTree} (unit : ParsedUnit source tree)

include unit

theorem parent_of_member {parent child : NodeId} {decl : ClassDecl}
    (present : tree.class? parent = some decl) (listed : child ∈ decl.members) :
    unit.outline.Parent parent child :=
  unit.adds.stands.parent_of_member unit.numbered unit.plainLeaves
    ⟨Nat.zero_le _, SyntaxTree.lt_of_class? present⟩ present listed

/-- A class is a member of one class only. -/
theorem holder_unique {parent other child : NodeId} (held : tree.Holds parent child)
    (heldOther : tree.Holds other child) : parent = other := by
  have inside : ∀ {holder}, tree.Holds holder child → unit.outline.Parent holder child := by
    rintro holder ⟨decl, present, listed, _⟩
    exact unit.parent_of_member present listed
  exact unit.numbered.parent_unique (inside held) (inside heldOther)

theorem not_holds_type {parent child : NodeId} (listed : child ∈ unit.outline.ids) :
    ¬ tree.Holds parent child := by
  rintro ⟨decl, present, member, _⟩
  exact unit.numbered.not_mem_ids (unit.parent_of_member present member) listed

end ParsedUnit

namespace Outline

variable {job : Printing}

/-- A patch is for a class whose holders all stay. -/
theorem outermost_of_mem_patches {source : Text} {tree : SyntaxTree}
    (unit : ParsedUnit source tree) {outline : Outline}
    (stands : outline.Stands source tree)
    (free : ∀ id ∈ outline.ids, ∀ other, (job.record? other).isSome →
      ¬ Relation.TransGen tree.Holds other id)
    {patch : Patch} (listed : patch ∈ outline.patches job) :
    ∀ other, (job.record? other).isSome → ¬ Relation.TransGen tree.Holds other patch.id := by
  induction outline with
  | nil => cases listed
  | leaf site node rest ih =>
      exact ih stands.2.2 (fun id later => free id (List.mem_cons_of_mem _ later)) listed
  | type site shape members rest ihMembers ihRest =>
      obtain ⟨⟨package, found⟩, _, standsMembers, standsRest⟩ := stands
      rcases List.mem_append.mp listed with here | later
      · cases converted : job.record? site.id with
        | some record =>
            rw [converted] at here
            rw [List.mem_singleton.mp here]
            exact free site.id List.mem_cons_self
        | none =>
            rw [converted] at here
            refine ihMembers standsMembers ?_ here
            -- what holds a member of this class is the class, or holds the class
            intro id member other isConverted path
            obtain ⟨holder, above, held⟩ := Relation.TransGen.tail'_iff.mp path
            obtain ⟨decl, present, listedId, isClass⟩ := held
            have own : tree.Holds site.id id :=
              ⟨_, SyntaxTree.class?_of_node? found, member, isClass⟩
            have same := unit.holder_unique ⟨decl, present, listedId, isClass⟩ own
            subst same
            rcases Relation.reflTransGen_iff_eq_or_transGen.mp above with rfl | strictly
            · rw [converted] at isConverted
              cases isConverted
            · exact free site.id List.mem_cons_self other isConverted strictly
      · exact ihRest standsRest (fun id behind => free id (List.mem_cons_of_mem _ behind)) later

/-- A converted class whose holders all stay has a patch. -/
theorem exists_patch {source : Text} {tree : SyntaxTree} {outline : Outline}
    (stands : outline.Stands source tree) (plain : outline.PlainLeaves source) {start id : NodeId}
    (listed : start ∈ outline.ids) (path : Relation.ReflTransGen tree.Holds start id)
    (isClass : (tree.class? id).isSome) (converted : (job.record? id).isSome)
    (free : ∀ other, (job.record? other).isSome → ¬ Relation.TransGen tree.Holds other id) :
    ∃ patch ∈ outline.patches job, patch.id = id := by
  induction outline generalizing start with
  | nil => cases listed
  | leaf site node rest ih =>
      rcases List.mem_cons.mp listed with rfl | later
      · have absent := plain.1.class?_eq_none stands.1
        rcases Relation.ReflTransGen.cases_head path with rfl | ⟨next, ⟨decl, present, _⟩, _⟩
        · rw [absent] at isClass
          cases isClass
        · rw [absent] at present
          cases present
      · exact ih stands.2.2 plain.2 later path
  | type site shape members rest ihMembers ihRest =>
      obtain ⟨⟨package, found⟩, _, standsMembers, standsRest⟩ := stands
      rcases List.mem_cons.mp listed with rfl | later
      · rcases Relation.ReflTransGen.cases_head path with rfl | ⟨next, held, below⟩
        · obtain ⟨record, same⟩ := Option.isSome_iff_exists.mp converted
          exact ⟨_, List.mem_append_left _ (by rw [same]; exact List.mem_singleton.mpr rfl), rfl⟩
        · have stays : job.record? site.id = none := by
            cases same : job.record? site.id with
            | none => rfl
            | some record =>
                exact absurd (Relation.TransGen.head' held below)
                  (free site.id (by rw [same]; rfl))
          obtain ⟨decl, present, member, _⟩ := held
          rw [SyntaxTree.class?_of_node? found] at present
          cases present
          obtain ⟨patch, inner, same⟩ := ihMembers standsMembers plain.1 member below
          exact ⟨patch, List.mem_append_left _ (by rw [stays]; exact inner), same⟩
      · obtain ⟨patch, behind, same⟩ := ihRest standsRest plain.2 later path
        exact ⟨patch, List.mem_append_right _ behind, same⟩

end Outline

namespace Printing

def Logged (job : Printing) (low high : Nat) (record : NodeId) : Prop :=
  ∃ id, low ≤ id ∧ id < high ∧ (job.record? id).isSome ∧ record = job.image id

theorem Logged.mono {job : Printing} {low high less more : Nat} {record : NodeId}
    (logged : job.Logged low high record) (first : less ≤ low) (last : high ≤ more) :
    job.Logged less more record := by
  obtain ⟨id, above, below, converted, same⟩ := logged
  exact ⟨id, Nat.le_trans first above, Nat.lt_of_lt_of_le below last, converted, same⟩

/-- Different classes have different records. -/
def Distinct (job : Printing) : Prop :=
  ∀ id other, (job.record? id).isSome → (job.record? other).isSome →
    job.image id = job.image other → id = other

theorem Distinct.disjoint {job : Printing} (distinct : job.Distinct) {low middle high : Nat}
    {records others : List NodeId} (first : ∀ record ∈ records, job.Logged low middle record)
    (second : ∀ record ∈ others, job.Logged middle high record) : records.Disjoint others := by
  intro record listed listedOther
  obtain ⟨id, _, below, converted, same⟩ := first record listed
  obtain ⟨other, above, _, convertedOther, sameOther⟩ := second record listedOther
  have equal := distinct id other converted convertedOther (same.symm.trans sameOther)
  subst equal
  exact Nat.lt_irrefl _ (Nat.lt_of_lt_of_le below above)

end Printing

/-- Entries that are looked up under different keys have nothing in common if no two entries do. -/
theorem nodup_flatten_lookup {entries : List (NodeId × List NodeId)} {keys : List NodeId}
    (each : ∀ entry ∈ entries, entry.2.Nodup)
    (apart : entries.Pairwise fun entry other => entry.2.Disjoint other.2) (distinct : keys.Nodup) :
    (keys.filterMap fun key => List.lookup key entries).flatten.Nodup := by
  apply List.nodup_flatten.mpr
  refine ⟨?_, ?_⟩
  · intro records listed
    obtain ⟨key, _, found⟩ := List.mem_filterMap.mp listed
    exact each _ (mem_of_lookup found)
  · apply List.pairwise_filterMap.mpr
    refine distinct.imp ?_
    intro key other different records found others foundOther
    have symmetric : Std.Symm fun entry other : NodeId × List NodeId =>
        entry.2.Disjoint other.2 := ⟨fun _ _ disjoint _ first second => disjoint second first⟩
    refine apart.forall (mem_of_lookup found) (mem_of_lookup foundOther) ?_
    intro same
    exact different (congrArg Prod.fst same)

namespace Outline

variable {job : Printing}

/-- The records that are printed among declarations with ids in a range: each is printed once. -/
structure LoggedOnce (job : Printing) (low high : Nat) (outline : Outline) : Prop where
  nodup : (outline.log job).Nodup
  logged : ∀ record ∈ outline.log job, job.Logged low high record
  each : ∀ entry ∈ outline.memberLogs job,
    entry.2.Nodup ∧ ∀ record ∈ entry.2, job.Logged low high record
  apart : (outline.memberLogs job).Pairwise fun entry other => entry.2.Disjoint other.2

theorem LoggedOnce.cons {low middle high : Nat} (distinct : job.Distinct)
    {outline rest : Outline} (own : NodeId) {records : List NodeId}
    (log : outline.log job = records ++ rest.log job)
    (logs : outline.memberLogs job = (own, records) :: rest.memberLogs job)
    (nodup : records.Nodup) (here : ∀ record ∈ records, job.Logged low middle record)
    (others : LoggedOnce job middle high rest) (first : low ≤ middle) (last : middle ≤ high) :
    LoggedOnce job low high outline := by
  refine ⟨?_, ?_, ?_, ?_⟩
  · rw [log]
    exact List.Nodup.append nodup others.nodup (distinct.disjoint here others.logged)
  · intro record listed
    rw [log] at listed
    rcases List.mem_append.mp listed with early | later
    · exact (here record early).mono (Nat.le_refl _) last
    · exact (others.logged record later).mono first (Nat.le_refl _)
  · intro entry listed
    rw [logs] at listed
    rcases List.mem_cons.mp listed with rfl | later
    · exact ⟨nodup, fun record member => (here record member).mono (Nat.le_refl _) last⟩
    · obtain ⟨once, inside⟩ := others.each entry later
      exact ⟨once, fun record member => (inside record member).mono first (Nat.le_refl _)⟩
  · rw [logs]
    refine List.pairwise_cons.mpr ⟨?_, others.apart⟩
    intro entry listed
    exact distinct.disjoint here (others.each entry listed).2

/-- No record is printed twice. -/
theorem Numbered.loggedOnce {low high : Nat} {outline : Outline}
    (numbered : outline.Numbered low high) (distinct : job.Distinct)
    (members : ∀ id record, job.record? id = some record → record.members.Nodup) :
    LoggedOnce job low high outline := by
  induction outline generalizing low high with
  | nil =>
      exact ⟨List.nodup_nil, fun _ listed => absurd listed List.not_mem_nil,
        fun _ listed => absurd listed List.not_mem_nil, .nil⟩
  | leaf site node rest ih =>
      refine .cons distinct site.id rfl rfl List.nodup_nil
        (fun _ listed => absurd listed List.not_mem_nil)
        (ih numbered.2) (Nat.le_succ _) numbered.2.le
  | type site shape inner rest ihMembers ihRest =>
      obtain ⟨numberedMembers, numberedRest⟩ := numbered
      have within := ihMembers numberedMembers
      have first : low ≤ site.id + 1 := Nat.le_succ_of_le numberedMembers.le
      cases converted : job.record? site.id with
      | none =>
          refine .cons distinct site.id ?_ ?_ within.nodup (fun record listed =>
            (within.logged record listed).mono (Nat.le_refl _) (Nat.le_succ _))
            (ihRest numberedRest) first numberedRest.le
          · rw [log, converted]
          · rw [memberLogs, converted]
      | some record =>
          have below : ∀ other ∈ (record.members.filterMap fun id =>
              List.lookup id (inner.memberLogs job)).flatten, job.Logged low site.id other := by
            intro other listed
            obtain ⟨records, found, member⟩ := List.mem_flatten.mp listed
            obtain ⟨key, _, looked⟩ := List.mem_filterMap.mp found
            exact (within.each _ (mem_of_lookup looked)).2 other member
          have own : job.Logged site.id (site.id + 1) (job.image site.id) :=
            ⟨site.id, Nat.le_refl _, Nat.lt_succ_self _, by rw [converted]; rfl, rfl⟩
          have logs : (type site shape inner rest).memberLogs job = (site.id, job.image site.id ::
              (record.members.filterMap fun id => List.lookup id (inner.memberLogs job)).flatten)
                :: rest.memberLogs job := by
            rw [memberLogs, converted]
          refine .cons distinct site.id ?_ logs (List.nodup_cons.mpr ⟨?_, ?_⟩) ?_
            (ihRest numberedRest) first numberedRest.le
          · rw [log, converted]
          · intro listed
            have single : ∀ other ∈ [job.image site.id],
              job.Logged site.id (site.id + 1) other := by
              intro other listed
              rw [List.mem_singleton.mp listed]
              exact own
            exact distinct.disjoint below single listed List.mem_cons_self
          · exact nodup_flatten_lookup (fun entry listed => (within.each entry listed).1)
              within.apart (members site.id record converted)
          · intro other listed
            rcases List.mem_cons.mp listed with rfl | deeper
            · exact own.mono numberedMembers.le (Nat.le_refl _)
            · exact (below other deeper).mono (Nat.le_refl _) (Nat.le_succ _)

end Outline

theorem ClassView.retained_sublist (view : ClassView) (eligible : Eligible) :
    List.Sublist (view.partition eligible).retained (view.members.map Member.id) := by
  have all : view.members.map Member.id =
      (view.partition eligible).dispositions.map Prod.fst := by
    simp [ClassView.partition]
  rw [all]
  exact List.filter_sublist.map _

namespace SyntaxTree

/-- A record keeps no member twice. -/
theorem nodup_members_of_replacement {tree : SyntaxTree} {id : NodeId} {replacement : Replacement}
    (chosen : tree.replacements.lookup id = some replacement) :
    replacement.record.members.Nodup := by
  obtain ⟨decl, present⟩ := class?_of_replacement chosen
  obtain ⟨members, eligible, read, _, partition, made⟩ := replacement_of_class chosen present
  obtain ⟨ids, distinct, _⟩ := resolveMembers_sound read
  rw [← ids] at distinct
  rw [made, partition]
  exact distinct.sublist (ClassView.retained_sublist ⟨id, decl, members⟩ eligible)

end SyntaxTree

namespace ParsedUnit

variable {source : Text} {tree : SyntaxTree} (unit : ParsedUnit source tree)

/-- The source after the last declaration. -/
def rest : Text :=
  Token.spell (Code.commentsFrom (unit.outline.stopFrom 0) (Code.ofTokens unit.tokens).tail)
    ++ unit.blank

include unit

theorem source_split : source = Token.spell unit.outline.tokens ++ unit.rest := by
  have spelled := unit.spelled
  rw [unit.joined, Token.spell_append, List.append_assoc] at spelled
  exact spelled

theorem size_eq : unit.outline.size = tree.nodes.size := by
  have := unit.numbered.size
  omega

theorem loggedPrint?_eq {job : Printing} (rebuilt : unit.outline.Rebuilt job)
    (same : job.tree.source = source)
    (types : job.tree.unit.types = unit.outline.types.map job.image)
    (size : tree.nodes.size ≤ job.tree.nodes.size) :
    job.tree.loggedPrint? =
      some (unit.outline.printed job ++ unit.rest, unit.outline.log job) := by
  have whole : job.tree.source = Token.spell unit.outline.tokens ++ unit.rest := by
    rw [same]
    exact unit.source_split
  have prints : unit.outline.Prints job Node.isMember job.tree.printFuel [] [] := by
    refine Outline.prints unit.tiles rebuilt ?_ ?_ rfl
    · rw [unit.size_eq, SyntaxTree.printFuel]
      omega
    · rw [whole]
      exact List.prefix_append _ _
  obtain ⟨after, left, text, joined, texts, spliced⟩ := prints.spliced
  rw [Outline.listed_isMember, ← types] at spliced
  have total : Text.byteSize job.tree.source =
      Text.byteSize after + Text.byteSize (left ++ unit.rest) := by
    rw [whole, ← List.nil_append (Token.spell unit.outline.tokens), ← List.nil_append [],
      ← joined]
    simp only [Text.byteSize_append]
    omega
  have sliced : Text.slice? job.tree.source (Text.byteSize after)
      (Text.byteSize job.tree.source) = some (left ++ unit.rest) := by
    have cut := Text.slice?_append after (left ++ unit.rest) []
    rw [List.append_nil, ← List.append_assoc, joined, List.nil_append, List.nil_append, ← whole,
      ← total] at cut
    exact cut
  have start : SyntaxTree.loggedList (SyntaxTree.loggedNode job.tree
      (Text.lineEnding job.tree.source) job.tree.printFuel) job.tree.unit.types 0 =
        some ((text, Text.byteSize after), unit.outline.log job) := spliced
  rw [SyntaxTree.loggedPrint?]
  simp only [start, sliced, Option.bind_eq_bind, Option.bind_some]
  rw [← List.append_assoc, texts, List.nil_append]

theorem printing_source : tree.printing.tree.source = source :=
  unit.sound.source.trans unit.source_eq

theorem size_le : tree.nodes.size ≤ tree.printing.tree.nodes.size := unit.sound.size

theorem loggedPrint?_convertUnit : tree.convertUnit.tree.loggedPrint? =
    some (unit.outline.printed tree.printing ++ unit.rest, unit.outline.log tree.printing) := by
  have types := (Rebuild.run_sound unit.acyclic (tree.membersKept tree.targets)).2.1
  refine unit.loggedPrint?_eq unit.rebuilt unit.printing_source ?_ unit.size_le
  rw [← unit.types]
  exact congrArg CompilationUnit.types types

/-- Different classes have different records. -/
theorem distinct : tree.printing.Distinct := by
  have settled := (Rebuild.run_sound unit.acyclic (tree.membersKept tree.targets)).2.2.2
  have fresh : ∀ id, (tree.printing.record? id).isSome → ∃ output,
      tree.rebuild.replaced.lookup id = some output ∧ tree.nodes.size ≤ output := by
    intro id converted
    obtain ⟨record, same⟩ := Option.isSome_iff_exists.mp converted
    obtain ⟨replacement, chosen, _⟩ := Option.map_eq_some_iff.mp same
    obtain ⟨decl, present⟩ := SyntaxTree.class?_of_replacement chosen
    have key : id ∈ tree.replacements.map Prod.fst :=
      List.mem_map.mpr ⟨(id, replacement), mem_of_lookup chosen, rfl⟩
    obtain ⟨output, looked⟩ :=
      Option.isSome_iff_exists.mp (settled id key (by rw [present]; rfl))
    obtain ⟨_, _, _, place⟩ := unit.sound.settled id output looked
    rw [chosen] at place
    exact ⟨output, looked, place.1⟩
  intro id other converted convertedOther same
  obtain ⟨output, looked, large⟩ := fresh id converted
  obtain ⟨another, lookedOther, _⟩ := fresh other convertedOther
  have equal : output = another := by
    rw [← Rebuild.image_eq_of_lookup looked, ← Rebuild.image_eq_of_lookup lookedOther]
    exact same
  subst equal
  exact unit.sound.distinct id other output large looked lookedOther

/-- No record of a converted source is printed twice. -/
theorem nodup_log : (unit.outline.log tree.printing).Nodup := by
  refine (unit.numbered.loggedOnce unit.distinct ?_).nodup
  intro id record converted
  obtain ⟨replacement, chosen, rfl⟩ := Option.map_eq_some_iff.mp converted
  exact SyntaxTree.nodup_members_of_replacement chosen

theorem patched_of {job : Printing} (rebuilt : unit.outline.Rebuilt job)
    (same : job.tree.source = source) (size : tree.nodes.size ≤ job.tree.nodes.size) :
    unit.outline.Patched job [] [] := by
  refine Outline.patched unit.tiles rebuilt ?_ ?_ ?_ rfl
  · have visible := unit.chain.visible
    rw [unit.joined] at visible
    exact (Token.Visible.append.mp visible).1
  · rw [unit.size_eq, SyntaxTree.printFuel]
    omega
  · rw [same]
    exact ⟨unit.rest, unit.source_split.symm⟩

theorem patched : unit.outline.Patched tree.printing [] [] :=
  unit.patched_of unit.rebuilt unit.printing_source unit.size_le

theorem overwrite?_of_patched {job : Printing} (patched : unit.outline.Patched job [] [])
    (same : job.tree.source = source) :
    Text.overwrite? source 0 (unit.outline.patches job) =
      some (unit.outline.printed job ++ unit.rest) := by
  obtain ⟨after, left, text, joined, texts, written⟩ := patched.rewrites
  have whole : source = after ++ (left ++ unit.rest) := by
    rw [← List.append_assoc, joined]
    exact unit.source_split
  have tail : Text.overwrite? source (Text.byteSize after) [] = some (left ++ unit.rest) := by
    have cut := Text.slice?_append after (left ++ unit.rest) []
    rw [List.append_nil, ← whole] at cut
    rw [Text.overwrite?]
    nth_rewrite 2 [whole]
    rw [Text.byteSize_append]
    exact cut
  have all := written []
  rw [same, List.append_nil, tail] at all
  refine all.trans ?_
  rw [Option.map_some, ← List.append_assoc, texts, List.nil_append]

theorem overwrite?_eq : Text.overwrite? source 0 (unit.outline.patches tree.printing) =
    some (unit.outline.printed tree.printing ++ unit.rest) :=
  unit.overwrite?_of_patched unit.patched unit.printing_source

end ParsedUnit

def SyntaxTree.selfPrinting (tree : SyntaxTree) : Printing := ⟨tree, id, fun _ => none⟩

namespace Outline

theorem Stands.rebuilt_self {tree : SyntaxTree} {outline : Outline}
    (stands : outline.Stands tree.source tree) (plain : outline.PlainLeaves tree.source) :
    outline.Rebuilt tree.selfPrinting := by
  induction outline with
  | nil => trivial
  | leaf site node rest ih => exact ⟨stands.1, plain.1, ih stands.2.2 plain.2⟩
  | type site shape members rest ihMembers ihRest =>
      obtain ⟨⟨package, found⟩, _, standsMembers, standsRest⟩ := stands
      refine ⟨⟨_, ?_, rfl, found⟩, ihMembers standsMembers plain.1, ihRest standsRest plain.2⟩
      exact (List.map_id _).symm

/-- Declarations that all stay are printed as their source. -/
theorem printed_self {tree : SyntaxTree} {outline : Outline} {offset : Nat}
    (tiles : outline.Tiles offset) :
    outline.printed tree.selfPrinting = Token.spell outline.tokens := by
  induction outline generalizing offset with
  | nil => rfl
  | leaf site node rest ih => rw [printed, tokens, Token.spell_append, ih tiles.2]
  | type site shape members rest ihMembers ihRest =>
      obtain ⟨_, body, memberTiles, restTiles⟩ := tiles
      have stays : tree.selfPrinting.record? site.id = none := rfl
      rw [printed, stays, ihMembers memberTiles, ihRest restTiles, tokens, body.split]
      simp only [Token.spell_append]

end Outline

namespace ParsedUnit

variable {source : Text} {tree : SyntaxTree} (unit : ParsedUnit source tree)

include unit

theorem print?_eq : tree.print? = some source := by
  have stands : unit.outline.Stands tree.source tree := by
    rw [unit.source_eq]
    exact unit.adds.stands
  have plain : unit.outline.PlainLeaves tree.source := by
    rw [unit.source_eq]
    exact unit.plainLeaves
  have logged : tree.loggedPrint? =
      some (unit.outline.printed tree.selfPrinting ++ unit.rest,
        unit.outline.log tree.selfPrinting) := by
    refine unit.loggedPrint?_eq (stands.rebuilt_self plain) unit.source_eq ?_ (Nat.le_refl _)
    rw [show unit.outline.types.map tree.selfPrinting.image = unit.outline.types from List.map_id _]
    exact unit.types
  rw [Outline.printed_self unit.tiles, ← unit.source_split] at logged
  exact SyntaxTree.print?_of_loggedPrint? logged

/-- The patches are for the outermost classes that are converted. -/
theorem mem_patches_iff (id record : NodeId) :
    (∃ patch ∈ unit.outline.patches tree.printing, patch.id = id ∧ patch.record = record) ↔
      tree.convertUnit.Outermost tree id record := by
  have isSome : ∀ other, (tree.printing.record? other).isSome ↔
      (tree.replacements.lookup other).isSome := by
    intro other
    simp [SyntaxTree.printing]
  have converts := tree.converts_iff
  constructor
  · rintro ⟨patch, listed, rfl, rfl⟩
    obtain ⟨same, _, record, text, converted, _⟩ := unit.patched.renders patch listed
    refine ⟨(converts _ _).mpr ⟨(isSome _).mp (by rw [converted]; rfl), same⟩, ?_⟩
    intro other another convertsOther
    refine Outline.outermost_of_mem_patches unit unit.adds.stands ?_ listed other
      ((isSome _).mpr ((converts _ _).mp convertsOther).1)
    intro child top parent _ path
    obtain ⟨holder, _, held⟩ := Relation.TransGen.tail'_iff.mp path
    exact unit.not_holds_type top held
  · rintro ⟨isConverted, free⟩
    obtain ⟨isReplaced, rfl⟩ := (converts _ _).mp isConverted
    obtain ⟨replacement, chosen⟩ := Option.isSome_iff_exists.mp isReplaced
    obtain ⟨isTarget, _⟩ := (tree.lookup_replacements id replacement).mp chosen
    obtain ⟨⟨start, listed, path⟩, _⟩ := (tree.mem_targets_iff id).mp isTarget
    obtain ⟨decl, present⟩ := SyntaxTree.class?_of_replacement chosen
    obtain ⟨patch, inside, same⟩ := Outline.exists_patch unit.adds.stands unit.plainLeaves
      (unit.types_subset listed) (Relation.ReflTransGen.mono (fun _ _ held => held.holds) _ _ path)
      (by rw [present]; rfl) ((isSome _).mpr isReplaced) fun other converted =>
        free other _ ((converts _ _).mpr ⟨(isSome _).mp converted, rfl⟩)
    refine ⟨patch, inside, same, ?_⟩
    rw [(unit.patched.renders patch inside).record, same]
    rfl

end ParsedUnit

/-- What a patch of a converted source holds: it covers the extent of its class and is the text of
its record, after a line break if the class does not start the source. -/
def UnitConversion.Fills (conversion : UnitConversion) (tree : SyntaxTree) (patch : Patch) : Prop :=
  ∃ decl record text, tree.class? patch.id = some decl ∧ patch.span = decl.source.extent ∧
    conversion.tree.record? patch.record = some record ∧
    conversion.tree.renderRecord? patch.record record = some text ∧
    patch.text =
      (if patch.span.start > 0 then Text.lineEnding tree.source else []) ++ text

/-- The patches of a conversion of some classes hold the records of classes that it converts. -/
theorem ParsedUnit.fills_printingOf {source : Text} {tree : SyntaxTree}
    (unit : ParsedUnit source tree) (ids : List NodeId) {patch : Patch}
    (listed : patch ∈ unit.outline.patches (tree.printingOf ids)) :
    (tree.convert ids).Converts patch.id patch.record ∧ (tree.convert ids).Fills tree patch := by
  have same : (tree.printingOf ids).tree.source = source :=
    (unit.sound_rebuildOf ids).source.trans unit.source_eq
  have patched := unit.patched_of (unit.rebuilt_printingOf ids) same (unit.sound_rebuildOf ids).size
  obtain ⟨own, _, record, text, converted, span, found, rendered, whole⟩ :=
    patched.renders patch listed
  have replaced := (tree.map_record_lookup ids patch.id).trans converted
  obtain ⟨replacement, chosen, rfl⟩ := Option.map_eq_some_iff.mp replaced
  have judged := ((lookup_replacementsOf tree ids _ _).mp chosen).2
  obtain ⟨decl, present⟩ := SyntaxTree.class?_of_judged judged
  obtain ⟨_, _, _, _, _, made⟩ := SyntaxTree.replacement_of_judged judged present
  refine ⟨(tree.converts_convert_iff ids _ _).mpr ⟨by rw [chosen]; rfl, own⟩, decl, _, text,
    present, ?_, ?_, rendered, ?_⟩
  · rw [span, made]
    rfl
  · rw [SyntaxTree.record?, SyntaxTree.convert_tree,
      show (tree.rebuildOf ids).tree.node? patch.record = _ from found]
  · rw [whole, span, Printing.separator, Printing.newline, same, unit.source_eq]

/-- A converted source is its source with the outermost converted classes written over by their
records, none left out and none printed twice; and a source that is not converted stays. -/
theorem SyntaxTree.print_convertUnit {source : Text} {tree : SyntaxTree}
    (parsed : parse source = .ok tree) :
    (∃ patches text log,
      (∀ id record, (∃ patch ∈ patches, patch.id = id ∧ patch.record = record) ↔
        tree.convertUnit.Outermost tree id record) ∧
      (∀ patch ∈ patches, tree.convertUnit.Fills tree patch) ∧
      (∀ patch ∈ patches, patch.span.start < patch.span.stop) ∧
      (patches.Pairwise fun patch other => patch.span.stop ≤ other.span.start) ∧
      Text.overwrite? source 0 patches = some text ∧
      tree.convertUnit.tree.print? = some text ∧
      tree.convertUnit.tree.loggedPrint? = some (text, log) ∧ log.Nodup) ∧
    tree.print? = some source := by
  obtain ⟨unit⟩ := ParsedUnit.exists_of_parse parsed
  refine ⟨⟨unit.outline.patches tree.printing, unit.outline.printed tree.printing ++ unit.rest,
    unit.outline.log tree.printing, unit.mem_patches_iff, ?_,
    fun patch listed => (unit.patched.renders patch listed).filled, ?_, unit.overwrite?_eq,
    print?_of_loggedPrint? unit.loggedPrint?_convertUnit, unit.loggedPrint?_convertUnit,
    unit.nodup_log⟩, unit.print?_eq⟩
  · intro patch listed
    rw [tree.printing_eq] at listed
    exact (unit.fills_printingOf tree.targets listed).2
  · exact (Text.pairwise_of_overwrite?
      (fun patch listed => (unit.patched.renders patch listed).filled) unit.overwrite?_eq).2

def pointSource : Text := "class P{private final int x;P(int x){this.x=x;}}".toList

theorem SyntaxTree.pointSource_print_convertUnit :
    ∃ tree patches, parse pointSource = .ok tree ∧ tree.isEligible 2 = true ∧
      Text.overwrite? pointSource 0 patches = tree.convertUnit.tree.print? ∧
      tree.print? = some pointSource := by
  obtain ⟨tree, parsed, eligible⟩ := exists_ok_of_any
    (show (parse pointSource).toOption.any (fun tree => tree.isEligible 2) = true by decide +kernel)
  obtain ⟨⟨patches, text, _, _, _, _, _, written, printed, _⟩, same⟩ := print_convertUnit parsed
  exact ⟨tree, patches, parsed, eligible, written.trans printed.symm, same⟩

end JavaRecords
