import JavaRecords.Proofs.Parse.Declarations

set_option autoImplicit false

namespace JavaRecords

/-- The members of a class are nodes that can be members, each listed once, and its fields have the
places where they are listed. -/
structure ClassDecl.Proper (decl : ClassDecl) (tree : SyntaxTree) : Prop where
  members : ∀ member ∈ decl.members, ∃ node, tree.node? member = some node ∧ node.isMember = true
  distinct : decl.members.Nodup
  positions : ∀ index member field, decl.members[index]? = some member →
    tree.node? member = some (.field field) → field.position = index

/-- The bodies of constructors, methods and initializers are blocks in braces. -/
def SyntaxTree.Bodied (tree : SyntaxTree) : Prop :=
  ∀ id node label body, tree.node? id = some node → node.labelledBody? = some (label, body) →
    body.text.Braced

namespace Code

/-- The declarations of a unit have no bodies of their own. -/
theorem UnitLeaf.labelledBody?_eq {piece : Piece} {source : Excerpt} {node : Node}
    (isLeaf : UnitLeaf piece source node) : node.labelledBody? = none := by
  cases isLeaf <;> rfl

end Code

namespace Outline

variable {source className : Text} {position : Nat} {outline : Outline} {tree : SyntaxTree}

/-- A field has its place among the members. -/
theorem Shaped.position_eq (shaped : outline.Shaped source className position)
    (stands : outline.Stands source tree) {index : Nat} {id : NodeId} {field : FieldDecl}
    (listed : outline.ids[index]? = some id) (found : tree.node? id = some (.field field)) :
    field.position = position + index := by
  induction outline generalizing position index with
  | nil => cases listed
  | leaf site node rest ih =>
      cases index with
      | zero =>
          cases listed
          rw [stands.1, Option.some.injEq] at found
          have own := shaped.1
          rw [found] at own
          exact Code.position_of_memberShape own
      | succ index =>
          have later := ih shaped.2 stands.2.2 listed
          omega
  | type site shape members rest _ ih =>
      cases index with
      | zero =>
          cases listed
          obtain ⟨package, isClass⟩ := stands.1
          rw [isClass] at found
          cases found
      | succ index =>
          have later := ih shaped.2.2 stands.2.2.2 listed
          omega

theorem ClassAmong.proper {tokens : List Token} {site : Site} {shape : ClassShape}
    {members : Outline} (isClass : ClassAmong source tokens tree site shape members)
    (package : Option Text) (excerpt : Excerpt) :
    (shape.decl package members.ids excerpt).Proper tree where
  members := isClass.shaped.isMember isClass.among.stands
  distinct := by
    obtain ⟨low, numbered⟩ := isClass.numbered
    exact numbered.sorted.imp Nat.ne_of_lt
  positions index member field listed found := by
    have place := isClass.shaped.position_eq isClass.among.stands listed found
    rwa [Nat.zero_add] at place

/-- The body of a member is spelled by the last tokens of its declaration, which are in braces. -/
theorem Among.exists_block {tokens : List Token} {site : Site} {node : Node} {rest : Outline}
    (among : (leaf site node rest).Among source tokens tree) {label : Text} {body : Body}
    (labelled : node.labelledBody? = some (label, body)) :
    ∃ block, block <:+ site.piece.tokens ∧ Code.Braced block ∧ Code.body block = .ok body := by
  rcases among.shaped with inUnit | ⟨className, position, inClass⟩
  · rw [inUnit.1.labelledBody?_eq] at labelled
    cases labelled
  · have inside := among.first_infix rfl
    exact Code.body_of_memberShape inClass.1 (among.completes _ List.mem_cons_self)
      (fun token listed => Code.marked_ofTokens tokens token (inside.subset listed)) labelled

/-- The body of a member is a block in braces. -/
theorem Among.braced {tokens : List Token} {tail : Text} {site : Site} {node : Node}
    {rest : Outline}
    (among : (leaf site node rest).Among source tokens tree) (chain : Token.Chain tokens tail)
    {label : Text} {body : Body} (labelled : node.labelledBody? = some (label, body)) :
    body.text.Braced := by
  obtain ⟨block, suffix, braced, isBody⟩ := among.exists_block labelled
  have within := suffix.isInfix.trans (among.first_infix rfl)
  rw [← Code.flat_ofTokens tokens, Token.chain_append] at chain
  obtain ⟨after, chainBlock⟩ := Code.chain_of_infix chain.1 within
  have bound := (Code.bound_ofTokens tokens).1
  rw [Code.text_of_body isBody]
  exact braced.text chainBlock (bound.of_infix within)

end Outline

namespace SyntaxTree

/-- Proper members can be looked up. -/
theorem exists_resolveMembers {tree : SyntaxTree} (bodied : tree.Bodied) {seen ids : List NodeId}
    {lastField : Option Nat} {position : Nat}
    (members : ∀ id ∈ ids, ∃ node, tree.node? id = some node ∧ node.isMember = true)
    (distinct : ids.Nodup) (fresh : ∀ id ∈ ids, id ∉ seen)
    (positions : ∀ index id field, ids[index]? = some id → tree.node? id = some (.field field) →
      field.position = position + index)
    (before : ∀ last, lastField = some last → last < position) :
    ∃ resolved, tree.resolveMembers seen lastField ids = .ok resolved := by
  induction ids generalizing seen lastField position with
  | nil => exact ⟨[], rfl⟩
  | cons id rest ih =>
      obtain ⟨node, found, isMember⟩ := members id List.mem_cons_self
      obtain ⟨once, distinctRest⟩ := List.nodup_cons.mp distinct
      have own : ∀ field, node = .field field → field.position = position := by
        rintro field rfl
        exact positions 0 id field rfl found
      have passes : node.passes lastField = true := by
        cases node with
        | field decl =>
            have place := own decl rfl
            simp only [Node.passes, Bool.not_eq_true']
            cases lastField with
            | none => rfl
            | some last =>
                have earlier := before last rfl
                simp only [Option.any_some, decide_eq_false_iff_not]
                omega
        | _ =>
            all_goals
              simp only [Node.passes]
              cases labelled : Node.labelledBody? _ with
              | none => rfl
              | some entry =>
                  obtain ⟨label, body⟩ := entry
                  exact Body.isBlock_of_braced (bodied id _ label body found labelled)
      have checked := (tree.checkMember_eq_ok_iff seen lastField id node).mpr
        ⟨found, isMember, fresh id List.mem_cons_self, passes⟩
      obtain ⟨others, read⟩ := @ih (id :: seen) (node.position?.or lastField) (position + 1)
        (fun other listed => members other (List.mem_cons_of_mem _ listed)) distinctRest
        (by
          intro other listed met
          rcases List.mem_cons.mp met with rfl | earlier
          · exact once listed
          · exact fresh other (List.mem_cons_of_mem _ listed) earlier)
        (by
          intro index other field listed isField
          have place := positions (index + 1) other field listed isField
          omega)
        (by
          intro last same
          cases node with
          | field decl =>
              cases same
              exact Nat.lt_succ_of_le (Nat.le_of_eq (own decl rfl))
          | _ => exact Nat.lt_succ_of_lt (before last same))
      exact ⟨_, (tree.resolveMembers_cons seen lastField id rest _).mpr
        ⟨node, others, checked, read, rfl⟩⟩

theorem exists_view {tree : SyntaxTree} (bodied : tree.Bodied) {id : NodeId} {decl : ClassDecl}
    (present : tree.class? id = some decl) (proper : decl.Proper tree) :
    ∃ view, tree.resolveClass id = .ok (some view) := by
  obtain ⟨members, read⟩ := @exists_resolveMembers tree bodied [] decl.members none 0
    proper.members proper.distinct (fun _ _ => List.not_mem_nil)
    (fun index member field listed found => by
      rw [Nat.zero_add]
      exact proper.positions index member field listed found)
    (fun _ absent => by cases absent)
  exact ⟨_, (tree.resolveClass_eq_some_iff id _).mpr ⟨decl, members, present, read, rfl⟩⟩

/-- A conversion of classes that can be looked up reports no failure. -/
theorem not_isFailed_of_convert {tree : SyntaxTree} {ids : List NodeId}
    (resolves : ∀ id ∈ ids, ∃ view?, tree.resolveClass id = .ok view?) :
    ∀ report ∈ (tree.convert ids).reports, report.outcome.isFailed = false := by
  intro report listed
  obtain ⟨judged, isJudged, made⟩ := List.mem_filterMap.mp listed
  obtain ⟨id, isId, rfl⟩ := List.mem_map.mp isJudged
  obtain ⟨outcome, decided, rfl⟩ := Option.map_eq_some_iff.mp made
  obtain ⟨view?, found⟩ := resolves id isId
  have passed : ∀ violation, (tree.judge id).verdict ≠ .failed violation := by
    intro violation
    unfold judge
    rw [found]
    cases view? with
    | none => exact fun same => by cases same
    | some view =>
        cases classified : view.classifyWithDiagnostics with
        | mk classification notes => cases classification <;> simp [classified]
  change outcome.isFailed = false
  unfold Rebuild.outcome? at decided
  cases verdict : (tree.judge id).verdict with
  | failed violation => exact absurd verdict (passed violation)
  | unchanged reason =>
      rw [verdict] at decided
      cases decided
      rfl
  | replace replacement =>
      rw [verdict] at decided
      obtain ⟨record, _, rfl⟩ := Option.map_eq_some_iff.mp decided
      rfl

end SyntaxTree

namespace ParsedUnit

variable {source : Text} {tree : SyntaxTree} (unit : ParsedUnit source tree)

include unit

theorem bodied : tree.Bodied := by
  intro id node label body found labelled
  rcases unit.exists_declaration (by rw [found]; rfl) with
    ⟨site, own, rest, rfl, among⟩ | ⟨site, shape, members, rfl, isClass⟩
  · cases among.stands.1.symm.trans found
    exact among.braced unit.chain labelled
  · obtain ⟨package, present⟩ := isClass.present
    cases (SyntaxTree.node?_of_class? present).symm.trans found
    cases labelled

theorem proper {id : NodeId} {decl : ClassDecl} (present : tree.class? id = some decl) :
    decl.Proper tree := by
  obtain ⟨site, shape, members, rfl, isClass⟩ := unit.exists_class present
  obtain ⟨package, found⟩ := isClass.present
  rw [found, Option.some.injEq] at present
  rw [← present]
  exact isClass.proper package _

/-- Every node can be looked up. -/
theorem exists_resolveClass {id : NodeId} (known : (tree.node? id).isSome) :
    ∃ view?, tree.resolveClass id = .ok view? := by
  cases present : tree.class? id with
  | some decl =>
      obtain ⟨view, found⟩ := SyntaxTree.exists_view unit.bodied present (unit.proper present)
      exact ⟨some view, found⟩
  | none =>
      refine ⟨none, ?_⟩
      obtain ⟨node, found⟩ := Option.isSome_iff_exists.mp known
      unfold SyntaxTree.class? at present
      rw [found] at present
      unfold SyntaxTree.resolveClass
      rw [found]
      cases node <;> first | rfl | cases present

end ParsedUnit

/-- The classes of a parsed source can be looked up, so that no conversion reports a failure: their
members are nodes that can be members, each listed once, their fields stand in order, and all bodies
are blocks in braces that can be read by themselves. -/
theorem SyntaxTree.resolves_of_parse {source : Text} {tree : SyntaxTree}
    (parsed : parse source = .ok tree) :
    (∀ report ∈ tree.convertUnit.reports, report.outcome.isFailed = false) ∧
    (∀ id, (tree.node? id).isSome →
      ∀ report ∈ (tree.convertClass id).reports, report.outcome.isFailed = false) ∧
    (∀ id decl, tree.class? id = some decl →
      decl.Proper tree ∧ ∃ view, tree.resolveClass id = .ok (some view)) ∧
    tree.Bodied := by
  obtain ⟨unit⟩ := ParsedUnit.exists_of_parse parsed
  refine ⟨not_isFailed_of_convert ?_, ?_, ?_, unit.bodied⟩
  · intro id target
    apply unit.exists_resolveClass
    rcases ((tree.mem_targets_iff id).mp target) with ⟨⟨start, listed, path⟩, isClass | unknown⟩
    · obtain ⟨decl, present⟩ := Option.isSome_iff_exists.mp isClass
      rw [node?_of_class? present]
      rfl
    · rcases Relation.ReflTransGen.cases_tail path with rfl | ⟨holder, _, held⟩
      · exact unit.known.types id listed
      · obtain ⟨decl, present⟩ := Option.isSome_iff_exists.mp (class?_isSome_of_holdsStatic held)
        rw [node?_of_class? present]
        rfl
  · intro id known
    apply not_isFailed_of_convert
    intro other listed
    rw [List.mem_singleton.mp listed]
    exact unit.exists_resolveClass known
  · intro id decl present
    exact ⟨unit.proper present, exists_view unit.bodied present (unit.proper present)⟩

/-- A class with an initializer, a constructor and a method. -/
def initializedPoint : Text :=
  "class P{static{int i=0;}private int x;P(int x){this.x=x;}int x(){return x;}}".toList

theorem SyntaxTree.initializedPoint_resolves_of_parse :
    ∃ tree, parse initializedPoint = .ok tree ∧ (tree.class? 4).isSome ∧
      ((∀ report ∈ tree.convertUnit.reports, report.outcome.isFailed = false) ∧
      (∀ id, (tree.node? id).isSome →
        ∀ report ∈ (tree.convertClass id).reports, report.outcome.isFailed = false) ∧
      (∀ id decl, tree.class? id = some decl →
        decl.Proper tree ∧ ∃ view, tree.resolveClass id = .ok (some view)) ∧
      tree.Bodied) := by
  obtain ⟨tree, parsed, isClass⟩ := exists_ok_of_any
    (show (parse initializedPoint).toOption.any (fun tree => (tree.class? 4).isSome) = true by
      decide +kernel)
  exact ⟨tree, parsed, isClass, resolves_of_parse parsed⟩

end JavaRecords
