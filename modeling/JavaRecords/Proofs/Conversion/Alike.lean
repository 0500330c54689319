import JavaRecords.Conversion.Classify
import Mathlib.Data.List.Forall2

set_option autoImplicit false

namespace JavaRecords

def Excerpt.blank : Excerpt := ⟨[], [], ⟨0, 0⟩, ⟨0, 0⟩⟩

/-- What a member says, whatever its place. Types and declarations kept as text say nothing. -/
def Node.gist : Node → Node
  | .field decl => .field { decl with source := .blank }
  | .constructor decl => .constructor { decl with source := .blank }
  | .method decl => .method { decl with source := .blank }
  | .initializer decl => .initializer { decl with source := .blank }
  | _ => .textual ⟨.unknown, none, .blank⟩

/-- Two members that say the same. -/
def Member.Alike (member other : Member) : Prop := member.node.gist = other.node.gist

/-- Two classes with the same superclass and modifiers whose members say the same in the same
order, each member listed once. -/
structure ClassView.Alike (view other : ClassView) : Prop where
  superclass : view.decl.superclass? = other.decl.superclass?
  modifiers : view.decl.modifiers = other.decl.modifiers
  members : List.Forall₂ Member.Alike view.members other.members
  distinct : (view.members.map Member.id).Nodup
  distinct_other : (other.members.map Member.id).Nodup

theorem ClassView.Alike.symm {view other : ClassView} (alike : view.Alike other) :
    other.Alike view where
  superclass := alike.superclass.symm
  modifiers := alike.modifiers.symm
  members := List.Forall₂.imp (fun _ _ same => Eq.symm same) alike.members.flip
  distinct := alike.distinct_other
  distinct_other := alike.distinct

/-- What a component contributes to the judgement of a class. -/
def Component.signature (component : Component) : Text × Text := (component.name, component.ty)

theorem isCanonical_congr {decl other : ConstructorDecl} {components others : List Component}
    (params : decl.params = other.params) (body : decl.body = other.body)
    (same : components.map Component.signature = others.map Component.signature) :
    isCanonical decl components = isCanonical other others := by
  have factored : ∀ (decl : ConstructorDecl) (components : List Component),
      isCanonical decl components =
        (decl.params.length == (components.map Component.signature).length
          && decl.body.statements.length == (components.map Component.signature).length
          && (decl.params.zip (components.map Component.signature)).all
            (fun (param, signature) => sameType param.ty signature.2)
          && (decl.body.statements.zip
              (decl.params.zip (components.map Component.signature))).all
            fun (stmt, param, signature) =>
              assignsComponent stmt param ⟨0, signature.1, signature.2, []⟩) := by
    intro decl components
    rw [List.zip_map_right, List.zip_map_right, List.all_map, List.all_map, List.length_map]
    rfl
  rw [factored, factored, params, body, same]

theorem componentWrittenBy?_congr {node other : Node} {components others : List Component}
    (code : node.writingCode? = other.writingCode?)
    (same : components.map Component.signature = others.map Component.signature) :
    componentWrittenBy? node components = componentWrittenBy? other others := by
  have named : ∀ (components : List Component) (name : Text),
      components.any (fun component => component.name == name) =
        (components.map Component.signature).any fun signature => signature.1 == name := by
    intro components name
    rw [List.any_map]
    rfl
  simp only [componentWrittenBy?, code, named, same]

@[simp] theorem Node.writingCode?_gist (node : Node) :
    node.gist.writingCode? = node.writingCode? := by
  cases node <;> rfl

/-- Whether a node is a block that runs for every instance. -/
def Node.isInstanceInitializer : Node → Bool
  | .initializer decl => !decl.isStatic
  | _ => false

@[simp] theorem Node.isInstanceInitializer_gist (node : Node) :
    node.gist.isInstanceInitializer = node.isInstanceInitializer := by
  cases node <;> rfl

namespace ClassView

def isCanonicalMember (components : List Component) (member : Member) : Bool :=
  match member.node with
  | .constructor decl => isCanonical decl components
  | _ => false

theorem isCanonicalMember_gist (components : List Component) (member : Member) :
    isCanonicalMember components ⟨member.id, member.node.gist⟩ =
      isCanonicalMember components member := by
  obtain ⟨id, node⟩ := member
  cases node <;> rfl

theorem isCanonicalMember_congr {member other : Member} {components others : List Component}
    (alike : member.Alike other)
    (same : components.map Component.signature = others.map Component.signature) :
    isCanonicalMember components member = isCanonicalMember others other := by
  have gist : member.node.gist = other.node.gist := alike
  rw [← isCanonicalMember_gist components, ← isCanonicalMember_gist others, gist]
  unfold isCanonicalMember
  cases other.node.gist <;> try rfl
  exact isCanonical_congr rfl rfl same

theorem head?_canonicalConstructors (view : ClassView) (components : List Component) :
    (view.canonicalConstructors components).head? =
      (view.members.find? (isCanonicalMember components)).map Member.id := by
  unfold canonicalConstructors constructors
  induction view.members with
  | nil => rfl
  | cons member rest ih =>
      obtain ⟨id, node⟩ := member
      cases node <;>
        simp only [List.filterMap_cons, List.find?_cons, isCanonicalMember] <;> try exact ih
      rename_i decl
      by_cases shaped : isCanonical decl components = true
      · simp [shaped]
      · simp only [shaped, List.filter_cons]
        simpa using ih

/-- The canonical members of two lists that are alike stand at the same place. -/
theorem find?_alike {small large : Member → Bool} {members others : List Member}
    (alike : List.Forall₂ Member.Alike members others)
    (test : ∀ member other, member.Alike other → small member = large other)
    (distinct : (members.map Member.id).Nodup) (distinct_other : (others.map Member.id).Nodup)
    {found : Member} (first : members.find? small = some found) :
    ∃ partner, others.find? large = some partner ∧
      List.Forall₂ (fun member other =>
        member.Alike other ∧ (member.id = found.id ↔ other.id = partner.id)) members others := by
  induction alike with
  | nil => cases first
  | @cons member other rest others same more ih =>
      simp only [List.map_cons, List.nodup_cons] at distinct distinct_other
      have tests := test member other same
      rw [List.find?_cons] at first ⊢
      rw [← tests]
      cases here : small member with
      | true =>
          rw [here] at first
          cases first
          refine ⟨other, rfl, .cons ⟨same, by simp⟩ ?_⟩
          -- no later member has the id of the first
          have apart := List.forall₂_iff_zip.mp more
          refine List.forall₂_iff_zip.mpr ⟨apart.1, ?_⟩
          intro later laterOther zipped
          refine ⟨apart.2 zipped, ?_⟩
          have left := List.mem_map_of_mem (f := Member.id) (List.of_mem_zip zipped).1
          have right := List.mem_map_of_mem (f := Member.id) (List.of_mem_zip zipped).2
          constructor
          · intro equal
            rw [equal] at left
            exact absurd left distinct.1
          · intro equal
            rw [equal] at right
            exact absurd right distinct_other.1
      | false =>
          rw [here] at first
          obtain ⟨partner, matched, related⟩ := ih distinct.2 distinct_other.2 first
          refine ⟨partner, matched, .cons ⟨same, ?_⟩ related⟩
          have left := List.mem_map_of_mem (f := Member.id) (List.mem_of_find?_eq_some first)
          have right := List.mem_map_of_mem (f := Member.id) (List.mem_of_find?_eq_some matched)
          constructor
          · intro equal
            rw [← equal] at left
            exact absurd left distinct.1
          · intro equal
            rw [← equal] at right
            exact absurd right distinct_other.1

theorem hasInstanceInitializer_congr {view other : ClassView}
    (alike : List.Forall₂ Member.Alike view.members other.members) :
    view.hasInstanceInitializer = other.hasInstanceInitializer := by
  unfold hasInstanceInitializer
  generalize view.members = members at alike ⊢
  generalize other.members = others at alike ⊢
  induction alike with
  | nil => rfl
  | @cons member other rest others same _ ih =>
      have gist : member.node.gist = other.node.gist := same
      rw [List.any_cons, List.any_cons, ih]
      change (member.node.isInstanceInitializer || _) = (other.node.isInstanceInitializer || _)
      rw [← Node.isInstanceInitializer_gist, gist, Node.isInstanceInitializer_gist]

/-- Two fields that say the same. -/
def FieldAlike (field other : NodeId × FieldDecl) : Prop :=
  ({ field.2 with source := .blank } : FieldDecl) = { other.2 with source := .blank }

theorem instanceFields_alike {view other : ClassView}
    (alike : List.Forall₂ Member.Alike view.members other.members) :
    List.Forall₂ FieldAlike view.instanceFields other.instanceFields := by
  unfold instanceFields fields
  generalize view.members = members at alike ⊢
  generalize other.members = others at alike ⊢
  induction alike with
  | nil => exact .nil
  | @cons member other rest others same _ ih =>
      obtain ⟨id, node⟩ := member
      obtain ⟨otherId, otherNode⟩ := other
      cases node <;> cases otherNode <;>
        simp only [Member.Alike, Node.gist, Node.field.injEq, reduceCtorEq] at same <;>
        simp only [List.filterMap_cons] <;> try exact ih
      rename_i decl otherDecl
      have modifiers : decl.modifiers = otherDecl.modifiers := by
        simp only [FieldDecl.mk.injEq] at same
        exact same.2.2.1
      simp only [List.filter_cons, modifiers]
      split
      · exact .cons same ih
      · exact ih

theorem component_alike {field other : NodeId × FieldDecl} (same : FieldAlike field other)
    {given : Component} (read : component field.1 field.2 = .ok given) :
    ∃ counterpart, component other.1 other.2 = .ok counterpart ∧
      given.signature = counterpart.signature := by
  simp only [FieldAlike, FieldDecl.mk.injEq] at same
  obtain ⟨name, ty, modifiers, _, _, declarators, _⟩ := same
  unfold component at read ⊢
  rw [← modifiers, ← declarators]
  split at read
  · cases read
  · rename_i proper
    split at read
    · cases read
    · rename_i single
      cases read
      simp only [proper, single, Bool.false_eq_true, ↓reduceIte, Except.ok.injEq,
        exists_eq_left', Component.signature, name, ty]

theorem mapM_component_eq_ok_iff {fields : List (NodeId × FieldDecl)} {given : List Component} :
    fields.mapM (fun field => component field.1 field.2) = .ok given ↔
      List.Forall₂ (fun field own => component field.1 field.2 = .ok own) fields given := by
  constructor
  · intro read
    induction fields generalizing given with
    | nil =>
        cases read
        exact .nil
    | cons field rest ih =>
        rw [List.mapM_cons] at read
        cases first : component field.1 field.2 with
        | error reason =>
            rw [first] at read
            cases read
        | ok head =>
            rw [first] at read
            cases more : rest.mapM (fun field => component field.1 field.2) with
            | error reason =>
                rw [more] at read
                cases read
            | ok tail =>
                rw [more] at read
                cases read
                exact .cons first (ih more)
  · intro each
    induction each with
    | nil => rfl
    | cons first _ ih =>
        rw [List.mapM_cons, first, ih]
        rfl

theorem mapM_component_alike {fields others : List (NodeId × FieldDecl)}
    (alike : List.Forall₂ FieldAlike fields others) {given : List Component}
    (read : fields.mapM (fun field => component field.1 field.2) = .ok given) :
    ∃ counterparts, others.mapM (fun field => component field.1 field.2) = .ok counterparts ∧
      given.map Component.signature = counterparts.map Component.signature := by
  replace read := mapM_component_eq_ok_iff.mp read
  simp only [mapM_component_eq_ok_iff]
  induction alike generalizing given with
  | nil =>
      cases read
      exact ⟨[], .nil, rfl⟩
  | cons same _ ih =>
      cases read with
      | cons first more =>
          obtain ⟨counterpart, readOther, sameHead⟩ := component_alike same first
          obtain ⟨counterparts, readOthers, sameTail⟩ := ih more
          exact ⟨counterpart :: counterparts, .cons readOther readOthers,
            by simp only [List.map_cons, sameHead, sameTail]⟩

theorem components_alike {view other : ClassView} (alike : view.Alike other)
    {given : List Component} (read : view.components = .ok given) :
    ∃ counterparts, other.components = .ok counterparts ∧
      given.map Component.signature = counterparts.map Component.signature := by
  have header : view.headerObstacle? = other.headerObstacle? := by
    simp only [headerObstacle?, alike.superclass, alike.modifiers]
  unfold components at read ⊢
  rw [← header, ← hasInstanceInitializer_congr alike.members]
  split at read
  · cases read
  · split at read
    · cases read
    · rename_i quiet
      split at read
      · cases read
      · cases read
      · rename_i components nonempty found
        cases read
        obtain ⟨counterparts, readOther, same⟩ :=
          mapM_component_alike (instanceFields_alike alike.members) found
        refine ⟨counterparts, ?_, same⟩
        simp only [readOther, quiet, Bool.false_eq_true, ↓reduceIte]
        cases counterparts with
        | nil =>
            exact absurd (List.map_eq_nil_iff.mp same) nonempty
        | cons head tail => rfl

theorem strayWrite?_eq_none_iff (view : ClassView) (components : List Component)
    (canonical : NodeId) : view.strayWrite? components canonical = none ↔
      ∀ member ∈ view.members, member.id ≠ canonical →
        componentWrittenBy? member.node components = none := by
  unfold strayWrite?
  rw [List.findSome?_eq_none_iff]
  constructor
  · intro quiet member listed other
    have here := quiet member listed
    rw [if_neg other] at here
    exact Option.map_eq_none_iff.mp here
  · intro quiet member listed
    by_cases same : member.id = canonical
    · rw [if_pos same]
    · rw [if_neg same, quiet member listed same]
      rfl

/-- When a class can become a record. -/
theorem isEligible_iff (view : ClassView) : view.classify.isEligible = true ↔
    ∃ components canonical, view.components = .ok components ∧
      view.members.find? (isCanonicalMember components) = some canonical ∧
      ∀ member ∈ view.members, member.id ≠ canonical.id →
        componentWrittenBy? member.node components = none := by
  unfold classify classifyWithDiagnostics
  cases read : view.components with
  | error reason => simp [Classification.isEligible]
  | ok components =>
      dsimp only
      have head := head?_canonicalConstructors view components
      cases listed : view.canonicalConstructors components with
      | nil =>
          rw [listed] at head
          have absent : view.members.find? (isCanonicalMember components) = none :=
            Option.map_eq_none_iff.mp head.symm
          simp [Classification.isEligible, absent]
      | cons canonical others =>
          rw [listed] at head
          obtain ⟨member, found, rfl⟩ := Option.map_eq_some_iff.mp head.symm
          have quiet := strayWrite?_eq_none_iff view components member.id
          dsimp only
          cases stray : view.strayWrite? components member.id with
          | none =>
              refine ⟨fun _ => ⟨components, member, rfl, found, quiet.mp stray⟩, fun _ => rfl⟩
          | some reason =>
              refine Iff.intro (fun eligible => absurd eligible Bool.false_ne_true) ?_
              rintro ⟨_, canonical, same, first, writes⟩
              cases same
              rw [found] at first
              cases first
              rw [quiet.mpr writes] at stray
              cases stray

theorem Alike.isEligible_of_isEligible {view other : ClassView} (alike : view.Alike other)
    (eligible : view.classify.isEligible = true) : other.classify.isEligible = true := by
  obtain ⟨components, canonical, read, first, writes⟩ := view.isEligible_iff.mp eligible
  obtain ⟨counterparts, readOther, same⟩ := components_alike alike read
  obtain ⟨partner, matched, related⟩ := find?_alike alike.members
    (fun member other alike => isCanonicalMember_congr alike same) alike.distinct
    alike.distinct_other first
  refine other.isEligible_iff.mpr ⟨counterparts, partner, readOther, matched, ?_⟩
  intro member listed different
  obtain ⟨index, bound, rfl⟩ := List.getElem_of_mem listed
  have inside : index < view.members.length := related.length_eq ▸ bound
  obtain ⟨alike, ids⟩ := related.get inside bound
  have silent := writes _ (List.getElem_mem inside) fun equal => different (ids.mp equal)
  have code := congrArg Node.writingCode? alike
  rw [Node.writingCode?_gist, Node.writingCode?_gist] at code
  exact (componentWrittenBy?_congr code same).symm.trans silent

end ClassView

def Node.position? : Node → Option Nat
  | .field decl => some decl.position
  | _ => none

@[simp] theorem Node.position?_gist (node : Node) : node.gist.position? = node.position? := by
  cases node <;> rfl

def Node.passes (node : Node) (lastField : Option Nat) : Bool :=
  match node with
  | .field decl => !lastField.any fun last => decl.position ≤ last
  | _ => (node.labelledBody?.map fun labelled => labelled.2.isBlock).getD true

@[simp] theorem Node.passes_gist (node : Node) (lastField : Option Nat) :
    node.gist.passes lastField = node.passes lastField := by
  cases node <;> rfl

namespace SyntaxTree

theorem checkMember_eq_ok_iff (tree : SyntaxTree) (seen : List NodeId) (lastField : Option Nat)
    (id : NodeId) (node : Node) : tree.checkMember seen lastField id = .ok node ↔
      tree.node? id = some node ∧ node.isMember = true ∧ id ∉ seen ∧
        node.passes lastField = true := by
  unfold checkMember
  cases found : tree.node? id with
  | none => simp
  | some stored =>
      by_cases member : stored.isMember = true
      · by_cases met : seen.contains id = true
        · simp_all
        · have unseen : id ∉ seen := fun listed => met (List.contains_iff_mem.mpr listed)
          simp only [member, met, Bool.not_true, Bool.false_eq_true, ↓reduceIte]
          cases stored <;> simp [Node.passes, Node.labelledBody?] <;> grind
      · simp_all
        grind

theorem resolveMembers_cons (tree : SyntaxTree) (seen : List NodeId) (lastField : Option Nat)
    (id : NodeId) (rest : List NodeId) (members : List Member) :
    tree.resolveMembers seen lastField (id :: rest) = .ok members ↔
      ∃ node others, tree.checkMember seen lastField id = .ok node ∧
        tree.resolveMembers (id :: seen) (node.position?.or lastField) rest = .ok others ∧
        members = ⟨id, node⟩ :: others := by
  have unfolded : tree.resolveMembers seen lastField (id :: rest) = (do
      let node ← tree.checkMember seen lastField id
      let others ← tree.resolveMembers (id :: seen) (node.position?.or lastField) rest
      return ⟨id, node⟩ :: others) := by
    rw [resolveMembers]
    congr 1
    funext node
    cases node <;> rfl
  rw [unfolded]
  cases checked : tree.checkMember seen lastField id with
  | error violation => simp [bind, Except.bind]
  | ok node =>
      simp only [bind, Except.bind, Except.ok.injEq, exists_and_left, exists_eq_left']
      cases found : tree.resolveMembers (id :: seen) (node.position?.or lastField) rest with
      | error violation => simp
      | ok others => simp [pure, Except.pure, eq_comm]

/-- Members that can be looked up are the ids of the list, each once. -/
theorem resolveMembers_sound {tree : SyntaxTree} {seen : List NodeId} {lastField : Option Nat}
    {ids : List NodeId} {members : List Member}
    (read : tree.resolveMembers seen lastField ids = .ok members) :
    members.map Member.id = ids ∧ ids.Nodup ∧ (∀ id ∈ ids, id ∉ seen) ∧
      ∀ member ∈ members, tree.node? member.id = some member.node := by
  induction ids generalizing seen lastField members with
  | nil =>
      cases read
      simp
  | cons id rest ih =>
      obtain ⟨node, others, checked, found, rfl⟩ :=
        (tree.resolveMembers_cons seen lastField id rest members).mp read
      obtain ⟨present, _, fresh, _⟩ := (tree.checkMember_eq_ok_iff _ _ _ _).mp checked
      obtain ⟨listed, distinct, unseen, known⟩ := ih found
      refine ⟨by rw [List.map_cons, listed], ?_, ?_, ?_⟩
      · refine List.nodup_cons.mpr ⟨fun again => ?_, distinct⟩
        exact unseen id again List.mem_cons_self
      · intro other present
        rcases List.mem_cons.mp present with rfl | later
        · exact fresh
        · exact fun earlier => unseen other later (List.mem_cons_of_mem _ earlier)
      · intro member listed
        rcases List.mem_cons.mp listed with rfl | later
        · exact present
        · exact known member later

/-- The nodes of two trees that can stand for each other in the body of a class. -/
def NodesAlike (tree other : SyntaxTree) (id otherId : NodeId) : Prop :=
  ∃ node otherNode, tree.node? id = some node ∧ other.node? otherId = some otherNode ∧
    node.isMember = otherNode.isMember ∧ node.gist = otherNode.gist

theorem resolveMembers_alike {tree other : SyntaxTree} {seen otherSeen : List NodeId}
    {lastField : Option Nat} {ids others : List NodeId} {otherMembers : List Member}
    (alike : List.Forall₂ (NodesAlike tree other) ids others) (distinct : ids.Nodup)
    (fresh : ∀ id ∈ ids, id ∉ seen)
    (read : other.resolveMembers otherSeen lastField others = .ok otherMembers) :
    ∃ members, tree.resolveMembers seen lastField ids = .ok members ∧
      List.Forall₂ Member.Alike members otherMembers := by
  induction alike generalizing seen otherSeen lastField otherMembers with
  | nil =>
      cases read
      exact ⟨[], rfl, .nil⟩
  | @cons id otherId rest others same _ ih =>
      obtain ⟨otherNode, more, checked, found, rfl⟩ :=
        (other.resolveMembers_cons otherSeen lastField otherId others otherMembers).mp read
      obtain ⟨stored, _, _, passed⟩ := (other.checkMember_eq_ok_iff _ _ _ _).mp checked
      obtain ⟨node, sameNode, present, presentOther, isMember, gist⟩ := same
      rw [stored] at presentOther
      cases presentOther
      have accepted : tree.checkMember seen lastField id = .ok node := by
        apply (tree.checkMember_eq_ok_iff _ _ _ _).mpr
        refine ⟨present, by simp_all, fresh id List.mem_cons_self, ?_⟩
        rw [← Node.passes_gist, gist, Node.passes_gist]
        exact passed
      have position : otherNode.position? = node.position? := by
        rw [← Node.position?_gist, ← gist, Node.position?_gist]
      rw [position] at found
      obtain ⟨repeated, distinct⟩ := List.nodup_cons.mp distinct
      obtain ⟨members, readMembers, alikes⟩ := @ih (id :: seen) _ _ _ distinct (by
        intro later listed earlier
        rcases List.mem_cons.mp earlier with rfl | before
        · exact repeated listed
        · exact fresh later (List.mem_cons_of_mem _ listed) before) found
      refine ⟨⟨id, node⟩ :: members, ?_, .cons gist alikes⟩
      exact (tree.resolveMembers_cons seen lastField id rest _).mpr
        ⟨node, members, accepted, readMembers, rfl⟩

theorem isEligible_iff_view (tree : SyntaxTree) (id : NodeId) : tree.isEligible id = true ↔
    ∃ decl members, tree.class? id = some decl ∧
      tree.resolveMembers [] none decl.members = .ok members ∧
      (ClassView.classify ⟨id, decl, members⟩).isEligible = true := by
  unfold isEligible classify resolveClass class?
  cases found : tree.node? id with
  | none => simp [Except.map]
  | some node =>
      cases node <;> try simp [Except.map, Classification.isEligible]
      rename_i decl
      cases read : tree.resolveMembers [] none decl.members <;> simp

/-- A class whose superclass, modifiers and members are those of an eligible class is eligible. -/
theorem isEligible_of_alike {tree other : SyntaxTree} {id otherId : NodeId}
    {decl otherDecl : ClassDecl} (present : tree.class? id = some decl)
    (presentOther : other.class? otherId = some otherDecl)
    (superclass : decl.superclass = otherDecl.superclass)
    (modifiers : decl.modifiers = otherDecl.modifiers)
    (members : List.Forall₂ (NodesAlike tree other) decl.members otherDecl.members)
    (distinct : otherDecl.members.Nodup → decl.members.Nodup)
    (eligible : other.isEligible otherId = true) : tree.isEligible id = true := by
  obtain ⟨found, otherMembers, sameOther, read, judged⟩ :=
    (other.isEligible_iff_view otherId).mp eligible
  rw [presentOther] at sameOther
  cases sameOther
  obtain ⟨listedOther, distinctOther, _, _⟩ := resolveMembers_sound read
  obtain ⟨ownMembers, readOwn, alikes⟩ := resolveMembers_alike members
    (distinct distinctOther) (fun _ _ => List.not_mem_nil) read
  obtain ⟨listed, distinctOwn, _, _⟩ := resolveMembers_sound readOwn
  have views : ClassView.Alike ⟨id, decl, ownMembers⟩ ⟨otherId, otherDecl, otherMembers⟩ :=
    { superclass := by simp only [ClassDecl.superclass?, superclass]
      modifiers := modifiers
      members := alikes
      distinct := by rw [listed]; exact distinctOwn
      distinct_other := by rw [listedOther]; exact distinctOther }
  exact (tree.isEligible_iff_view id).mpr
    ⟨decl, ownMembers, present, readOwn, views.symm.isEligible_of_isEligible judged⟩

end SyntaxTree

end JavaRecords
