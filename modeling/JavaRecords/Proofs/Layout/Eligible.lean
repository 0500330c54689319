import JavaRecords.Proofs.Layout.Parsed

set_option autoImplicit false

namespace JavaRecords

open Code

/-- The tokens of a block that starts its text. -/
def bodyTokens (inside : List Token) : List Token :=
  Token.mark [] '\x7b' :: (inside ++ [Token.mark "\n    ".toList '\x7d'])

theorem spell_bodyTokens (inside : List Token) :
    Token.spell (bodyTokens inside) = blockText inside := by
  simp [bodyTokens, blockText]

theorem read_blockText {inside : List Token} (isSealed : Token.Sealed inside)
    (settled : Token.Settled inside) :
    Code.read (blockText inside) = .ok ⟨laid 0 (bodyTokens inside), []⟩ := by
  have lexed : lexAll (blockText inside) = ⟨Token.restart 0 (bodyTokens inside), [], none⟩ := by
    have chain : Token.Chain (bodyTokens inside) [] := Token.chain_mark Text.blank_nil (by decide)
      ((isSealed.append (Token.sealed_mark (by decide) (by decide))) [])
    have spelled := lexFrom_of_chain chain Text.blank_nil 0
    rwa [List.append_nil, spell_bodyTokens] at spelled
  have whole : Token.Settled (bodyTokens inside) :=
    (Token.settled_mark (by decide) (by decide)).append
      (settled.append (Token.settled_mark (by decide) (by decide)))
  have noComment : ∀ comment ∈ ([] : List Token), comment.isComment = true := by simp
  have code := ofTokens_laid 0 noComment whole (List.cons_ne_nil _ _)
  rw [List.nil_append] at code
  rw [Code.read, lex, lexed]
  dsimp only [Except.map]
  rw [code]
  rfl

theorem leadingAssign?_of_none {code : List CodeToken}
    (plain : ∀ token ∈ code, token.assign = none) :
    leadingAssign? code = none := by
  refine List.findSome?_eq_none_iff.mpr fun entry listed => ?_
  have member : entry.1 ∈ code :=
    List.mem_of_mem_take (List.fst_mem_of_mem_zipIdx listed)
  obtain ⟨token, index⟩ := entry
  exact congrArg (Option.filter fun op => op.lead == index) (plain token member)

theorem writesFrom_skip {before rest : List CodeToken} {code : CodeToken}
    (unwritten : ∀ target, target? before code rest = some target →
      writeOp? before target.after = none) :
    writesFrom before (code :: rest) = writesFrom (code :: before) rest := by
  rw [writesFrom]
  cases found : target? before code rest with
  | none => rfl
  | some target =>
      simp only [bind, Option.bind, unwritten target found]
      rfl

theorem writesFrom_mark (before rest : List CodeToken) (space : Text) (c : Char) (start : Nat) :
    writesFrom before (.ofMark space c start :: rest) =
      writesFrom (.ofMark space c start :: before) rest := by
  refine writesFrom_skip fun target found => ?_
  rcases rest with _ | ⟨dot, _ | ⟨field, rest⟩⟩ <;> simp [target?] at found

theorem increment?_of_first {first second : CodeToken} (noPlus : first.isPunct '+' = false)
    (noMinus : first.isPunct '-' = false) : CodeToken.increment? first second = none := by
  rw [CodeToken.increment?, noPlus, noMinus]
  split <;> rfl

theorem writesFrom_return (space final name : Text) (opening this value semicolon closing : Nat) :
    writesFrom [] [.ofMark [] '\x7b' opening, .ofWord space "return".toList this,
      .ofWord [' '] name value, .ofMark [] ';' semicolon, .ofMark final '\x7d' closing] = [] := by
  have keyword : target? [.ofMark [] '\x7b' opening] (.ofWord space "return".toList this)
      [.ofWord [' '] name value, .ofMark [] ';' semicolon, .ofMark final '\x7d' closing] = none :=
        rfl
  have noAssign :
      leadingAssign? [.ofMark [] ';' semicolon, .ofMark final '\x7d' closing] = none := by
    refine leadingAssign?_of_none fun token listed => ?_
    simp only [List.mem_cons, List.not_mem_nil, or_false] at listed
    rcases listed with rfl | rfl <;> rfl
  have noWrite : writeOp? [.ofWord space "return".toList this, .ofMark [] '\x7b' opening]
      [.ofMark [] ';' semicolon, .ofMark final '\x7d' closing] = none := by
    rw [writeOp?, noAssign, leadingIncrement?, trailingIncrement?, increment?_of_first rfl rfl,
      increment?_of_first rfl rfl]
    rfl
  rw [writesFrom_mark, writesFrom_skip fun target found => ?_,
    writesFrom_skip fun target found => ?_, writesFrom_mark, writesFrom_mark, writesFrom]
  · -- the name, which is the target if it is no keyword
    have after : target.after = [.ofMark [] ';' semicolon, .ofMark final '\x7d' closing] := by
      have noDot : (CodeToken.ofMark [] ';' semicolon).isPunct '.' = false := rfl
      rw [target?, noDot, Bool.and_false, Bool.false_and, if_neg Bool.false_ne_true] at found
      split at found <;> cases found
      rfl
    rw [after, noWrite]
  · rw [keyword] at found
    cases found

/-- An accessor writes nothing. -/
theorem DataField.scanWrites_return {field : DataField} (named : field.name.isName = true) :
    scanWrites (blockText field.returnTokens) = .ok [] := by
  rw [scanWrites, read_blockText (sealed_returnTokens named) field.settled_returnTokens]
  have written : writesFrom [] (laid 0 (bodyTokens field.returnTokens)) = [] :=
    writesFrom_return _ _ _ _ _ _ _ _
  exact congrArg Except.ok written

def DataField.component (field : DataField) (id : NodeId) : Component :=
  ⟨id, field.name, field.ty.text, []⟩

def DataField.Declares (field : DataField) (member : Member) : Prop :=
  ∃ position source, member.node = field.fieldNode position source

def DataField.Accesses (field : DataField) (member : Member) : Prop :=
  ∃ source, member.node = field.accessorNode source

structure DataClass.Split (data : DataClass) (own : List Member) (canonical : Member)
    (others : List Member) : Prop where
  fields : List.Forall₂ (fun member field => field.Declares member) own data.fields
  canonical : ∃ source, canonical.node = data.constructorNode source
  accessors : ∀ member ∈ others, ∃ field ∈ data.fields, field.Accesses member

theorem exists_of_forall₂ {α β : Type} {related : α → β → Prop} {items : List α} {others : List β}
    (each : List.Forall₂ related items others) :
    ∀ item ∈ items, ∃ other ∈ others, related item other := by
  induction each with
  | nil => exact fun _ listed => absurd listed List.not_mem_nil
  | cons own _ ih =>
      intro item listed
      rcases List.mem_cons.mp listed with rfl | later
      · exact ⟨_, List.mem_cons_self, own⟩
      · obtain ⟨other, among, holds⟩ := ih item later
        exact ⟨other, List.mem_cons_of_mem _ among, holds⟩

theorem DataClass.exists_split {data : DataClass} {members : List Member}
    (each : List.Forall₂ Member.Of members data.members) :
    ∃ own canonical others, members = own ++ canonical :: others ∧
      data.Split own canonical others := by
  have front := List.forall₂_take_append _ _ _ each
  have back := List.forall₂_drop_append _ _ _ each
  rw [List.forall₂_map_right_iff] at front
  generalize isFront : members.take _ = own at front
  generalize isBack : members.drop _ = rest at back
  have joined : members = own ++ rest := by
    rw [← isFront, ← isBack, List.take_append_drop]
  cases back with
  | @cons canonical _ others _ isCanonical accessors =>
      obtain ⟨_, source, isNode⟩ := isCanonical
      refine ⟨own, canonical, others, joined, front, ⟨source, isNode⟩, fun member listed => ?_⟩
      obtain ⟨layout, among, isMember⟩ := exists_of_forall₂ accessors member listed
      obtain ⟨field, chosen, rfl⟩ := List.mem_map.mp among
      obtain ⟨_, source, isAccessor⟩ := isMember
      exact ⟨field, (List.mem_filter.mp chosen).1, source, isAccessor⟩

/-- The components of a record, in the order of the fields. -/
theorem mapM_component {id : NodeId} {decl : ClassDecl} {own rest : List Member}
    {fields : List DataField}
    (each : List.Forall₂ (fun member field => DataField.Declares field member) own fields)
    (noField : ClassView.instanceFields ⟨id, decl, rest⟩ = []) :
    (ClassView.instanceFields ⟨id, decl, own ++ rest⟩).mapM
        (fun field => ClassView.component field.1 field.2) =
      .ok (List.zipWith (fun member field => field.component member.id) own fields) := by
  induction each with
  | nil =>
      rw [List.nil_append, noField]
      rfl
  | @cons member field members fields isField _ ih =>
      obtain ⟨position, source, isNode⟩ := isField
      have first : ClassView.instanceFields ⟨id, decl, member :: members ++ rest⟩ =
          (member.id, ⟨field.name, field.ty.text, ⟨[.priv, .final], []⟩, position, none, 1, source⟩)
            :: ClassView.instanceFields ⟨id, decl, members ++ rest⟩ := by
        unfold ClassView.instanceFields ClassView.fields
        rw [List.cons_append, List.filterMap_cons, isNode]
        rfl
      rw [first, List.mapM_cons, ih]
      rfl

namespace DataClass.Split

variable {data : DataClass} {own others : List Member} {canonical : Member}
  (split : data.Split own canonical others)

include split

/-- Only the first members are fields, and none is an initializer or a class. -/
theorem kinds : ∀ member ∈ own ++ canonical :: others,
    member.node.kind ∈ [.field, .constructor, .method] := by
  intro member listed
  rcases List.mem_append.mp listed with inside | inside
  · obtain ⟨field, _, position, source, isNode⟩ := exists_of_forall₂ split.fields member inside
    simp [isNode, DataField.fieldNode, Node.kind]
  · rcases List.mem_cons.mp inside with rfl | later
    · obtain ⟨source, isNode⟩ := split.canonical
      simp [isNode, constructorNode, Node.kind]
    · obtain ⟨field, _, source, isNode⟩ := split.accessors member later
      simp [isNode, DataField.accessorNode, Node.kind]

theorem noField {id : NodeId} {decl : ClassDecl} :
    ClassView.instanceFields ⟨id, decl, canonical :: others⟩ = [] := by
  refine List.filter_eq_nil_iff.mpr fun field listed => ?_
  obtain ⟨member, among, isField⟩ := List.mem_filterMap.mp listed
  rcases List.mem_cons.mp among with rfl | later
  · obtain ⟨source, isNode⟩ := split.canonical
    rw [isNode] at isField
    cases isField
  · obtain ⟨field, _, source, isNode⟩ := split.accessors member later
    rw [isNode] at isField
    cases isField

end DataClass.Split

def DataClass.components (data : DataClass) (own : List Member) : List Component :=
  List.zipWith (fun member field => field.component member.id) own data.fields

theorem zipWith_component (own : List Member) (fields : List DataField) :
    List.zipWith (fun member field => DataField.component field member.id) own fields =
      (own.zip fields).map fun pair => pair.2.component pair.1.id := by
  rw [List.zip, List.map_zipWith]

theorem DataField.ident?_thisField {field : DataField} (named : field.name.isName = true) :
    Expr.ident? ⟨"this.".toList ++ field.name, .thisField⟩ = some field.name := by
  obtain ⟨c, rest, text, letter⟩ := Text.exists_of_isName named
  have noDot : c ≠ '.' := Text.ne_of_isAsciiLetter letter (by decide)
  have noSpace := Text.isSpace_of_isAsciiLetter letter
  simp [Expr.ident?, text, Text.trimStart, noDot, noSpace, show Text.isSpace '.' = false by decide]

theorem DataField.assignsComponent_assigned {field : DataField} (named : field.name.isName = true)
    (id : NodeId) : assignsComponent field.assigned field.param (field.component id) = true := by
  have target : Expr.isThisField ⟨"this.".toList ++ field.name, .thisField⟩ field.name = true := by
    rw [Expr.isThisField, ident?_thisField named]
    simp
  have value : Expr.isName ⟨field.name, .name⟩ field.name = true := by simp [Expr.isName]
  exact Bool.and_eq_true_iff.mpr ⟨target, value⟩

theorem isCanonical_of_fields {decl : ConstructorDecl} {own : List Member} {fields : List DataField}
    (named : ∀ field ∈ fields, field.name.isName = true) (same : own.length = fields.length)
    (params : decl.params = fields.map DataField.param)
    (statements : decl.body.statements = fields.map DataField.assigned) :
    isCanonical decl (List.zipWith (fun member field => DataField.component field member.id) own
      fields) = true := by
  have pairs : fields = (own.zip fields).map Prod.snd :=
    (List.map_snd_zip (Nat.le_of_eq same.symm)).symm
  have names : ∀ pair ∈ own.zip fields, pair.2.name.isName = true :=
    fun pair listed => named pair.2 (List.of_mem_zip listed).2
  rw [pairs, List.map_map] at params statements
  simp only [isCanonical, params, statements, zipWith_component, List.length_map, List.zip_map',
    beq_self_eq_true, Bool.true_and, List.all_map, Bool.and_eq_true, List.all_eq_true]
  refine ⟨fun pair _ => beq_self_eq_true _, fun pair listed => ?_⟩
  exact DataField.assignsComponent_assigned (names pair listed) pair.1.id

theorem DataField.Declares.not_canonical {field : DataField} {member : Member}
    (declares : field.Declares member) (components : List Component) :
    ClassView.isCanonicalMember components member = false := by
  obtain ⟨position, source, isNode⟩ := declares
  rw [ClassView.isCanonicalMember, isNode]
  rfl

theorem DataField.Declares.writes_nothing {field : DataField} {member : Member}
    (declares : field.Declares member) (components : List Component) :
    componentWrittenBy? member.node components = none := by
  obtain ⟨position, source, isNode⟩ := declares
  rw [isNode]
  rfl

theorem DataField.Accesses.writes_nothing {field : DataField} {member : Member}
    (accesses : field.Accesses member) (named : field.name.isName = true)
    (components : List Component) : componentWrittenBy? member.node components = none := by
  obtain ⟨source, isNode⟩ := accesses
  have code : member.node.writingCode? = some (blockText field.returnTokens, []) := by
    rw [isNode]
    rfl
  unfold componentWrittenBy?
  simp only [code, scanWrites_return named, bind, Option.bind]
  rfl

namespace DataClass.Split

variable {data : DataClass} {own others : List Member} {canonical : Member}
  (split : data.Split own canonical others) {id : NodeId} {decl : ClassDecl}

include split

theorem length_own : own.length = data.fields.length := split.fields.length_eq

variable (proper : data.Proper)

include proper

theorem components_eq (superclass : decl.superclass = none)
    (modifiers : decl.modifiers = ⟨[.pub], []⟩) :
    ClassView.components ⟨id, decl, own ++ canonical :: others⟩ = .ok (data.components own) := by
  have header : ClassView.headerObstacle? ⟨id, decl, own ++ canonical :: others⟩ = none := by
    simp [ClassView.headerObstacle?, ClassDecl.superclass?, superclass, modifiers, Modifiers.has]
  have noInitializer : ClassView.hasInstanceInitializer ⟨id, decl, own ++ canonical :: others⟩ =
      false := by
    refine List.any_eq_false.mpr fun member listed => ?_
    have kind := split.kinds member listed
    cases isNode : member.node <;> rw [isNode] at kind <;> simp [Node.kind] at kind ⊢
  have nonempty : data.components own ≠ [] := by
    intro empty
    have same := congrArg List.length empty
    rw [DataClass.components, List.length_zipWith, split.length_own, Nat.min_self] at same
    exact proper.nonempty (List.length_eq_zero_iff.mp same)
  unfold ClassView.components
  rw [header, noInitializer, mapM_component split.fields split.noField, ← DataClass.components]
  cases given : data.components own with
  | nil => exact absurd given nonempty
  | cons first rest => rfl

theorem find?_canonical : (own ++ canonical :: others).find?
    (ClassView.isCanonicalMember (data.components own)) = some canonical := by
  have before : own.find? (ClassView.isCanonicalMember (data.components own)) = none := by
    refine List.find?_eq_none.mpr fun member listed => ?_
    obtain ⟨field, _, declares⟩ := exists_of_forall₂ split.fields member listed
    rw [declares.not_canonical]
    exact Bool.false_ne_true
  have isCanonical : ClassView.isCanonicalMember (data.components own) canonical = true := by
    obtain ⟨source, isNode⟩ := split.canonical
    rw [ClassView.isCanonicalMember, isNode]
    exact isCanonical_of_fields proper.named split.length_own rfl rfl
  rw [List.find?_append, before, Option.none_or, List.find?_cons, isCanonical]

variable (id decl) in
/-- A data class can become a record. -/
theorem exists_eligible (superclass : decl.superclass = none)
    (modifiers : decl.modifiers = ⟨[.pub], []⟩) :
    ∃ eligible, ClassView.classify ⟨id, decl, own ++ canonical :: others⟩ = .eligible eligible ∧
      eligible.components = data.components own ∧ eligible.canonical = canonical.id := by
  have isEligible := (ClassView.isEligible_iff ⟨id, decl, own ++ canonical :: others⟩).mpr
    ⟨data.components own, canonical, split.components_eq proper superclass modifiers,
      split.find?_canonical proper, fun member listed other => by
        rcases List.mem_append.mp listed with inside | inside
        · obtain ⟨field, _, declares⟩ := exists_of_forall₂ split.fields member inside
          exact declares.writes_nothing _
        · rcases List.mem_cons.mp inside with rfl | later
          · exact absurd rfl other
          · obtain ⟨field, among, accesses⟩ := split.accessors member later
            exact accesses.writes_nothing (proper.named field among) _⟩
  cases found : ClassView.classify ⟨id, decl, own ++ canonical :: others⟩ with
  | ineligible reason =>
      rw [found] at isEligible
      cases isEligible
  | eligible eligible =>
      obtain ⟨components, first⟩ := ClassView.of_eligible found
      rw [split.components_eq proper superclass modifiers] at components
      have given : eligible.components = data.components own := (Except.ok.inj components).symm
      rw [given, split.find?_canonical proper] at first
      exact ⟨eligible, rfl, given, (Option.some.inj first).symm⟩

omit proper in
theorem exists_component {member : Member} (listed : member ∈ own) :
    ∃ component ∈ data.components own, component.field = member.id := by
  have pairs : (own.zip data.fields).map Prod.fst = own :=
    List.map_fst_zip (Nat.le_of_eq split.length_own)
  rw [← pairs] at listed
  obtain ⟨pair, among, rfl⟩ := List.mem_map.mp listed
  refine ⟨pair.2.component pair.1.id, ?_, rfl⟩
  rw [components, zipWith_component]
  exact List.mem_map_of_mem among

theorem component?_field {eligible : Eligible} (given : eligible.components = data.components own)
    {field : DataField} (listed : field ∈ data.fields) :
    ∃ component, eligible.component? field.name = some component ∧
      component.ty = field.ty.text := by
  have isComponent : (data.components own).map Component.name =
      data.fields.map DataField.name := by
    rw [components, zipWith_component, List.map_map]
    conv_rhs => rw [← List.map_snd_zip (Nat.le_of_eq split.length_own.symm), List.map_map]
    rfl
  obtain ⟨named, among, isNamed⟩ := List.mem_map.mp (isComponent ▸ List.mem_map_of_mem listed)
  cases found : eligible.component? field.name with
  | none =>
      rw [Eligible.component?, given] at found
      have other := List.find?_eq_none.mp found named among
      rw [isNamed] at other
      exact absurd (beq_self_eq_true _) other
  | some component =>
      refine ⟨component, rfl, ?_⟩
      rw [Eligible.component?, given, components, zipWith_component] at found
      obtain ⟨pair, inside, rfl⟩ := List.mem_map.mp (List.mem_of_find?_eq_some found)
      have isNamed := List.find?_some found
      have sameName : pair.2.name = field.name := eq_of_beq isNamed
      rw [← List.inj_on_of_nodup_map proper.distinct (List.of_mem_zip inside).2 listed sameName]
      rfl

/-- The record provides the accessors. -/
theorem isTrivialAccessor_of_accesses {eligible : Eligible}
    (given : eligible.components = data.components own) {field : DataField} {source : Excerpt}
    {member : MethodDecl} (listed : field ∈ data.fields)
    (isNode : field.accessorNode source = .method member) :
    isTrivialAccessor member eligible = true := by
  obtain ⟨component, found, ty⟩ := split.component?_field proper given listed
  cases isNode
  simp [isTrivialAccessor, isAccessorShaped, found, ty, sameType, Modifiers.has, Body.returnsField,
    DataField.returned, Expr.isName]

/-- The record provides every member of a data class. -/
theorem retained_partition {eligible : Eligible} (given : eligible.components = data.components own)
    (isCanonical : eligible.canonical = canonical.id) :
    (ClassView.partition ⟨id, decl, own ++ canonical :: others⟩ eligible).retained = [] := by
  have elided : ∀ member ∈ own ++ canonical :: others, disposition eligible member ≠ .retain := by
    intro member listed
    unfold disposition
    split
    · exact fun absent => by cases absent
    · rename_i other
      split
      · exact fun absent => by cases absent
      · rename_i noField
        rcases List.mem_append.mp listed with inside | inside
        · obtain ⟨component, among, same⟩ := split.exists_component inside
          refine absurd ?_ noField
          exact List.any_eq_true.mpr ⟨component, given ▸ among, beq_iff_eq.mpr same⟩
        · rcases List.mem_cons.mp inside with rfl | later
          · exact absurd isCanonical.symm other
          · obtain ⟨field, among, source, isNode⟩ := split.accessors member later
            have trivial := split.isTrivialAccessor_of_accesses proper given among
              (show field.accessorNode source = .method _ from rfl)
            rw [isNode]
            simp only [DataField.accessorNode, trivial]
            exact fun absent => by cases absent
  rw [Partition.retained, List.map_eq_nil_iff]
  refine List.filter_eq_nil_iff.mpr fun entry listed => ?_
  obtain ⟨member, among, rfl⟩ := List.mem_map.mp listed
  simpa using elided member among

end DataClass.Split

end JavaRecords
