import JavaRecords.Proofs.Conversion.Alike
import JavaRecords.Proofs.Conversion.Settled

set_option autoImplicit false

namespace JavaRecords

namespace SyntaxTree

def HoldsStatic (tree : SyntaxTree) (parent child : NodeId) : Prop :=
  ∃ decl, tree.class? parent = some decl ∧ child ∈ tree.staticMemberClasses decl

theorem HoldsStatic.holds {tree : SyntaxTree} {parent child : NodeId}
    (held : tree.HoldsStatic parent child) : tree.Holds parent child := by
  obtain ⟨decl, present, listed⟩ := held
  obtain ⟨member, static⟩ := List.mem_filter.mp listed
  refine ⟨decl, present, member, ?_⟩
  cases found : tree.class? child with
  | none =>
      rw [found] at static
      cases static
  | some nested => rfl

theorem reached_of_mem_targetsFrom (tree : SyntaxTree) (seen pending : List NodeId) (id : NodeId)
    (listed : id ∈ tree.targetsFrom seen pending) :
    (∃ start ∈ pending, Relation.ReflTransGen tree.HoldsStatic start id) ∧
      ((tree.class? id).isSome ∨ tree.node? id = none) := by
  fun_induction targetsFrom tree seen pending with
  | case1 => cases listed
  | case2 seen first rest met ih =>
      obtain ⟨⟨start, pending, path⟩, kind⟩ := ih listed
      exact ⟨⟨start, List.mem_cons_of_mem _ pending, path⟩, kind⟩
  | case3 seen first rest unmet unknown ih =>
      rcases List.mem_cons.mp listed with rfl | later
      · exact ⟨⟨id, List.mem_cons_self, .refl⟩, Or.inr unknown⟩
      · obtain ⟨⟨start, pending, path⟩, kind⟩ := ih later
        exact ⟨⟨start, List.mem_cons_of_mem _ pending, path⟩, kind⟩
  | case4 seen first rest unmet node known other ih =>
      obtain ⟨⟨start, pending, path⟩, kind⟩ := ih listed
      exact ⟨⟨start, List.mem_cons_of_mem _ pending, path⟩, kind⟩
  | case5 seen first rest unmet node known decl present ih =>
      rcases List.mem_cons.mp listed with rfl | later
      · exact ⟨⟨id, List.mem_cons_self, .refl⟩, Or.inl (by rw [present]; rfl)⟩
      · obtain ⟨⟨start, pending, path⟩, kind⟩ := ih later
        rcases List.mem_append.mp pending with held | other
        · exact ⟨⟨first, List.mem_cons_self, .head ⟨decl, present, held⟩ path⟩, kind⟩
        · exact ⟨⟨start, List.mem_cons_of_mem _ other, path⟩, kind⟩

/-- The classes listed so far lead only to classes that are listed or pending. -/
def Pursued (tree : SyntaxTree) (seen pending : List NodeId) : Prop :=
  ∀ parent ∈ seen, ∀ child, tree.HoldsStatic parent child → child ∈ seen ∨ child ∈ pending

theorem class?_isSome_of_holdsStatic {tree : SyntaxTree} {parent child : NodeId}
    (held : tree.HoldsStatic parent child) : (tree.class? child).isSome := by
  obtain ⟨_, _, _, isClass⟩ := held.holds
  exact isClass

/-- With the ids `found` every pending class is listed, and the listed classes lead only to listed
ones. -/
structure Exhausts (tree : SyntaxTree) (seen pending found : List NodeId) : Prop where
  covered : ∀ id ∈ pending, (tree.class? id).isSome ∨ tree.node? id = none → id ∈ seen ∨ id ∈ found
  closed : ∀ parent, parent ∈ seen ∨ parent ∈ found → ∀ child, tree.HoldsStatic parent child →
    child ∈ seen ∨ child ∈ found

section

variable {tree : SyntaxTree} {seen rest more found : List NodeId} {first : NodeId}

/-- A pending id that is listed already, or is no class, can be passed over. -/
theorem Pursued.pass (pursued : tree.Pursued seen (first :: rest))
    (idle : (tree.class? first).isSome → first ∈ seen) : tree.Pursued seen rest := by
  intro parent earlier child held
  rcases pursued parent earlier child held with here | later
  · exact Or.inl here
  · rcases List.mem_cons.mp later with rfl | other
    · exact Or.inl (idle (class?_isSome_of_holdsStatic held))
    · exact Or.inr other

/-- A pending id can be listed if what it leads to is pending. -/
theorem Pursued.list (pursued : tree.Pursued seen (first :: rest))
    (own : ∀ child, tree.HoldsStatic first child → child ∈ more) (kept : rest ⊆ more) :
    tree.Pursued (first :: seen) more := by
  intro parent earlier child held
  rcases List.mem_cons.mp earlier with rfl | before
  · exact Or.inr (own child held)
  · rcases pursued parent before child held with here | later
    · exact Or.inl (List.mem_cons_of_mem _ here)
    · rcases List.mem_cons.mp later with rfl | other
      · exact Or.inl List.mem_cons_self
      · exact Or.inr (kept other)

theorem Exhausts.pass (exhausts : tree.Exhausts seen rest found)
    (idle : (tree.class? first).isSome ∨ tree.node? first = none → first ∈ seen) :
    tree.Exhausts seen (first :: rest) found := by
  refine ⟨fun id listed kind => ?_, exhausts.closed⟩
  rcases List.mem_cons.mp listed with rfl | other
  · exact Or.inl (idle kind)
  · exact exhausts.covered id other kind

theorem Exhausts.list (exhausts : tree.Exhausts (first :: seen) more found) (kept : rest ⊆ more) :
    tree.Exhausts seen (first :: rest) (first :: found) := by
  -- an id is among those listed before or after, wherever `first` stands
  have listed_iff : ∀ id, id ∈ first :: seen ∨ id ∈ found ↔ id ∈ seen ∨ id ∈ first :: found := by
    intro id
    simp only [List.mem_cons]
    tauto
  refine ⟨fun id listed kind => ?_, fun parent listed child held => ?_⟩
  · rcases List.mem_cons.mp listed with rfl | other
    · exact Or.inr List.mem_cons_self
    · exact (listed_iff id).mp (exhausts.covered id (kept other) kind)
  · exact (listed_iff child).mp (exhausts.closed parent ((listed_iff parent).mpr listed) child held)

end

/-- In the end every pending class is listed, and the listed classes lead only to listed ones. -/
theorem exhausts_targetsFrom (tree : SyntaxTree) (seen pending : List NodeId)
    (pursued : tree.Pursued seen pending) :
    tree.Exhausts seen pending (tree.targetsFrom seen pending) := by
  fun_induction targetsFrom tree seen pending with
  | case1 seen =>
      refine ⟨fun _ listed => absurd listed List.not_mem_nil, ?_⟩
      rintro parent (earlier | none) child held
      · rcases pursued parent earlier child held with here | later
        · exact Or.inl here
        · cases later
      · cases none
  | case2 seen first rest met ih =>
      have already := List.contains_iff_mem.mp met
      exact (ih (pursued.pass fun _ => already)).pass fun _ => already
  | case3 seen first rest unmet unknown ih =>
      refine (ih (pursued.list ?_ (List.Subset.refl _))).list (List.Subset.refl _)
      rintro child ⟨decl, present, _⟩
      rw [node?_of_class? present] at unknown
      cases unknown
  | case4 seen first rest unmet node known other ih =>
      refine (ih (pursued.pass fun isClass => ?_)).pass ?_
      · rw [other] at isClass
        cases isClass
      · rintro (isClass | absent)
        · rw [other] at isClass
          cases isClass
        · rw [known] at absent
          cases absent
  | case5 seen first rest unmet node known decl present ih =>
      have kept := List.subset_append_right (tree.staticMemberClasses decl) rest
      refine (ih (pursued.list ?_ kept)).list kept
      rintro child ⟨found, same, listed⟩
      rw [present] at same
      cases same
      exact List.mem_append_left _ listed

/-- The targets of a unit are what its types lead to through static member classes: classes, and
unknown ids among the types. -/
theorem mem_targets_iff (tree : SyntaxTree) (id : NodeId) : id ∈ tree.targets ↔
    (∃ start ∈ tree.unit.types, Relation.ReflTransGen tree.HoldsStatic start id) ∧
      ((tree.class? id).isSome ∨ tree.node? id = none) := by
  constructor
  · intro listed
    exact reached_of_mem_targetsFrom tree [] tree.unit.types id listed
  · rintro ⟨⟨start, listed, path⟩, kind⟩
    obtain ⟨covered, closed⟩ := exhausts_targetsFrom tree [] tree.unit.types (by
      intro parent none
      cases none)
    have first : (tree.class? start).isSome ∨ tree.node? start = none := by
      rcases Relation.ReflTransGen.cases_head path with rfl | ⟨_, ⟨_, present, _⟩, _⟩
      · exact kind
      · exact Or.inl (by rw [present]; rfl)
    unfold targets
    clear kind
    induction path with
    | refl => simpa using covered start listed first
    | tail _ held ih => simpa using closed _ (Or.inr ih) _ held

/-- What it takes to look a class up. -/
theorem resolveClass_eq_some_iff (tree : SyntaxTree) (id : NodeId) (view : ClassView) :
    tree.resolveClass id = .ok (some view) ↔ ∃ decl members, tree.class? id = some decl ∧
      tree.resolveMembers [] none decl.members = .ok members ∧ view = ⟨id, decl, members⟩ := by
  unfold resolveClass class?
  cases found : tree.node? id with
  | none => simp
  | some node =>
      cases node <;> try simp
      rename_i decl
      cases read : tree.resolveMembers [] none decl.members with
      | error violation => simp
      | ok members =>
          simp only [Functor.map, Except.map, Except.ok.injEq, Option.some.injEq, exists_eq_left']
          exact eq_comm

/-- A class is replaced if it can be looked up and is eligible. -/
theorem judge_eq_replace_iff (tree : SyntaxTree) (id : NodeId) (replacement : Replacement) :
    (tree.judge id).verdict = .replace replacement ↔
      ∃ view eligible, tree.resolveClass id = .ok (some view) ∧
        view.classify = .eligible eligible ∧
        replacement =
          ⟨view.toRecord eligible (view.partition eligible), view.partition eligible⟩ := by
  unfold judge ClassView.classify
  cases read : tree.resolveClass id with
  | error violation => simp
  | ok view? =>
      cases view? with
      | none => simp
      | some view =>
          dsimp only
          cases classified : view.classifyWithDiagnostics with
          | mk classification notes =>
              cases classification with
              | ineligible reason => simp [classified]
              | eligible eligible => simp [classified, eq_comm]

end SyntaxTree

theorem replacementsOf_cons (entry : Judged) (rest : List Judged) :
    replacementsOf (entry :: rest) =
      match entry.verdict with
      | .replace replacement => (entry.id, replacement) :: replacementsOf rest
      | _ => replacementsOf rest := by
  unfold replacementsOf
  rw [List.filterMap_cons]
  cases entry.verdict <;> rfl

theorem SyntaxTree.judge_id (tree : SyntaxTree) (id : NodeId) : (tree.judge id).id = id := by
  unfold judge
  repeat' split
  all_goals rfl

/-- The replacements of a conversion are those of its targets. -/
theorem lookup_replacementsOf (tree : SyntaxTree) (ids : List NodeId) (id : NodeId)
    (replacement : Replacement) :
    (replacementsOf (ids.map tree.judge)).lookup id = some replacement ↔
      id ∈ ids ∧ (tree.judge id).verdict = .replace replacement := by
  induction ids with
  | nil => simp [replacementsOf]
  | cons first rest ih =>
      rw [List.map_cons, replacementsOf_cons, List.mem_cons]
      split
      · rename_i given verdict
        rw [tree.judge_id]
        by_cases same : id = first
        · subst same
          simp [verdict]
        · rw [Rebuild.lookup_cons_of_ne _ same, ih]
          simp [same]
      · rename_i other
        rw [ih]
        constructor
        · rintro ⟨listed, replaced⟩
          exact ⟨Or.inr listed, replaced⟩
        · rintro ⟨rfl | listed, replaced⟩
          · exact absurd replaced (other replacement)
          · exact ⟨listed, replaced⟩

end JavaRecords
