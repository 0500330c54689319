import JavaRecords.Proofs.Code.Returned
import JavaRecords.Proofs.Conversion.Canonical
import JavaRecords.Proofs.Conversion.Writes

set_option autoImplicit false

namespace JavaRecords

def Component.IsFirst (component : Component) (components : List Component) (name : Text) : Prop :=
  component.name = name ∧ ∃ before after, components = before ++ component :: after ∧
    ∀ other ∈ before, other.name ≠ name

/-- A method is declared like the accessor of a component: it has no parameters, no type parameters
and is not static, it has the name of a component and the type of the first one with that name, and
all its annotations are `Override`. -/
structure MethodDecl.LikeAccessor (method : MethodDecl) (components : List Component) : Prop where
  params : method.params = []
  typeParams : method.typeParams = none
  notStatic : method.modifiers.has .static = false
  component : ∃ component : Component, component.IsFirst components method.name ∧
    sameType method.returnTy component.ty = true
  annotations : ∀ written ∈ method.modifiers.annotations, annotationName written = "Override".toList

/-- A method does what the accessor of a component does, and no more: the tokens in the braces of
its body return the component. -/
structure MethodDecl.Accesses (method : MethodDecl) (source : Text) (tokens : List Token)
    (components : List Component) : Prop extends method.LikeAccessor components where
  returns : ∃ body opening inside closing, method.body = some body ∧
    (Node.method method).HasBlock source tokens body (opening :: (inside ++ [closing])) ∧
    Token.Returns tokens method.name inside

namespace ClassView

variable {tree : SyntaxTree} {id : NodeId} {decl : ClassDecl} {members : List Member}
  {eligible : Eligible}

theorem mem_methods {view : ClassView} {method : NodeId × MethodDecl} :
    method ∈ view.methods ↔ ⟨method.1, .method method.2⟩ ∈ view.members := by
  unfold methods
  rw [List.mem_filterMap]
  constructor
  · rintro ⟨⟨own, node⟩, listed, isMethod⟩
    cases node <;> cases isMethod
    exact listed
  · exact fun listed => ⟨_, listed, rfl⟩

/-- Of the methods, a record does without the trivial accessors. -/
theorem mem_elided_method_iff (found : ClassView.classify ⟨id, decl, members⟩ = .eligible eligible)
    (ids : members.map Member.id = decl.members)
    (nodes : ∀ member ∈ members, tree.node? member.id = some member.node)
    {method : NodeId × MethodDecl} (listed : method ∈ ClassView.methods ⟨id, decl, members⟩) :
    method.1 ∈ (ClassView.partition ⟨id, decl, members⟩ eligible).elided.map Prod.fst ↔
      isTrivialAccessor method.2 eligible = true := by
  have among : ⟨method.1, .method method.2⟩ ∈ members := mem_methods.mp listed
  have node : tree.node? method.1 = some (.method method.2) := nodes _ among
  have inClass : method.1 ∈ decl.members := ids ▸ List.mem_map_of_mem among
  -- the canonical constructor is no method
  have other : method.1 ≠ eligible.canonical := by
    intro same
    have shaped := List.find?_some (find?_canonical found ids nodes)
    rw [← same, SyntaxTree.hasCanonicalShape, node] at shaped
    cases shaped
  rw [mem_elided_partition found ids nodes, and_iff_right inClass, SyntaxTree.provides, node]
  simp [other]

end ClassView

theorem Eligible.component?_eq_some_iff {eligible : Eligible} {name : Text}
    {component : Component} :
    eligible.component? name = some component ↔ component.IsFirst eligible.components name := by
  simp [component?, Component.IsFirst, List.find?_eq_some_iff_append]

/-- A trivial accessor is declared like an accessor and only returns the component. -/
theorem isTrivialAccessor_iff (method : MethodDecl) (eligible : Eligible) :
    isTrivialAccessor method eligible = true ↔ method.LikeAccessor eligible.components ∧
      ∃ body, method.body = some body ∧ body.returnsField method.name = true := by
  simp only [isTrivialAccessor, isAccessorShaped, Bool.and_eq_true, List.isEmpty_iff,
    Option.isNone_iff_eq_none, Bool.not_eq_true', Option.any_eq_true, List.all_eq_true, beq_iff_eq,
    Eligible.component?_eq_some_iff]
  constructor
  · rintro ⟨⟨⟨⟨⟨params, typeParams⟩, notStatic⟩, component⟩, annotations⟩, returned⟩
    exact ⟨⟨params, typeParams, notStatic, component, annotations⟩, returned⟩
  · rintro ⟨⟨params, typeParams, notStatic, component, annotations⟩, returned⟩
    exact ⟨⟨⟨⟨⟨params, typeParams⟩, notStatic⟩, component⟩, annotations⟩, returned⟩

namespace ParsedUnit

variable {source : Text} {tree : SyntaxTree} (unit : ParsedUnit source tree)

include unit

/-- The body of a method returns a field where the tokens in its braces do. -/
theorem returnsField_iff_returns {id : NodeId} {method : MethodDecl}
    (found : tree.node? id = some (.method method)) {body : Body} (isBody : method.body = some body)
    (named : method.name.IsName) :
    ∃ opening inside closing,
      (Node.method method).HasBlock source unit.tokens body (opening :: (inside ++ [closing])) ∧
      (body.returnsField method.name = true ↔ Token.Returns unit.tokens method.name inside) := by
  obtain ⟨block, within, ⟨opening, inside, closing, rfl, _⟩, read, hasBlock⟩ :=
    unit.exists_block found (show _ = some (method.name, body) by simp [Node.labelledBody?, isBody])
  obtain ⟨closed, statements⟩ := Code.statements_of_body read
  have part : inside <:+: (Code.ofTokens unit.tokens).tokens :=
    List.IsInfix.trans ⟨[opening], [closing], rfl⟩ within
  exact ⟨opening.token, inside.map CodeToken.token, closing.token, by simpa using hasBlock,
    Code.returnsField_iff unit.chain unit.located named.head?_ne part closed statements⟩

/-- The trivial accessors are the methods that do what the accessor of a component does. -/
theorem isTrivialAccessor_iff_accesses {id : NodeId} {method : MethodDecl}
    (found : tree.node? id = some (.method method)) {eligible : Eligible}
    (named : ∀ component ∈ eligible.components, component.name.IsName) :
    isTrivialAccessor method eligible = true ↔
      method.Accesses source unit.tokens eligible.components := by
  have isName : method.LikeAccessor eligible.components → method.name.IsName := by
    intro like
    obtain ⟨component, ⟨same, before, after, split, _⟩, _⟩ := like.component
    exact same ▸ named component (by simp [split])
  rw [isTrivialAccessor_iff]
  constructor
  · rintro ⟨like, body, isBody, returned⟩
    obtain ⟨opening, inside, closing, hasBlock, returns⟩ :=
      unit.returnsField_iff_returns found isBody (isName like)
    exact ⟨like, body, opening, inside, closing, isBody, hasBlock, returns.mp returned⟩
  · rintro ⟨like, body, first, within, last, isBody, own, returned⟩
    obtain ⟨opening, inside, closing, hasBlock, returns⟩ :=
      unit.returnsField_iff_returns found isBody (isName like)
    have isSource : (Node.method method).source? = some method.source := rfl
    have block := (own.eq_codeBetween isSource).trans (hasBlock.eq_codeBetween isSource).symm
    rw [List.cons.injEq, List.append_singleton_inj] at block
    rw [block.2.1] at returned
    exact ⟨like, body, isBody, returns.mpr returned⟩

end ParsedUnit

/-- A record does without exactly those methods of its class that do what the accessor of a
component does, and no more. -/
theorem SyntaxTree.elides_accessor_iff_of_parse {source : Text} {tree : SyntaxTree}
    (parsed : parse source = .ok tree) {id : NodeId} {eligible : Eligible}
    (classified : tree.classify id = .ok (.eligible eligible)) :
    ∃ view tokens, tree.resolveClass id = .ok (some view) ∧ lex source = .ok tokens ∧
      ∀ method ∈ view.methods,
        (method.1 ∈ (view.partition eligible).elided.map Prod.fst ↔
          method.2.Accesses source tokens eligible.components) := by
  obtain ⟨unit⟩ := ParsedUnit.exists_of_parse parsed
  obtain ⟨view, resolved, found⟩ := exists_view_of_eligible classified
  obtain ⟨decl, members, _, read, rfl⟩ := (tree.resolveClass_eq_some_iff _ _).mp resolved
  obtain ⟨ids, _, _, nodes⟩ := resolveMembers_sound read
  refine ⟨_, unit.tokens, resolved, unit.lex_source, fun method listed => ?_⟩
  rw [ClassView.mem_elided_method_iff found ids nodes listed]
  refine unit.isTrivialAccessor_iff_accesses (nodes _ (ClassView.mem_methods.mp listed)) ?_
  intro component among
  rw [ClassView.components_of_eligible found] at among
  obtain ⟨field, isField, rfl⟩ := List.mem_map.mp among
  exact unit.isName_field (nodes _ (ClassView.mem_instanceFields.mp isField).1)

/-- A class with two accessors, and two methods that are like them but for a comment and
a semicolon. -/
def readTwice : Text :=
  ("class P\x7bprivate final int x;private final int[] y;P(int a,int...b)\x7bthis.x=a;this.y=b;\x7d"
    ++ "int x()\x7breturn x;\x7d@java.lang.Override public int [] y()\x7breturn this . y\x7d" ++
    "int x()\x7breturn this./*c*/x;\x7dint[] y()\x7breturn y;;\x7d\x7d").toList

theorem SyntaxTree.readTwice_elides_accessor_iff_of_parse :
    ∃ tree eligible view tokens, parse readTwice = .ok tree ∧
      tree.classify 7 = .ok (.eligible eligible) ∧ tree.resolveClass 7 = .ok (some view) ∧
      lex readTwice = .ok tokens ∧ view.methods.map Prod.fst = [3, 4, 5, 6] ∧
      (view.partition eligible).elided.map Prod.fst = [0, 1, 2, 3, 4] ∧
      ∀ method ∈ view.methods,
        (method.1 ∈ (view.partition eligible).elided.map Prod.fst ↔
          method.2.Accesses readTwice tokens eligible.components) := by
  have checked : (do
      let tree ← (parse readTwice).toOption
      let classification ← (tree.classify 7).toOption
      let eligible ← classification.eligible?
      let view? ← (tree.resolveClass 7).toOption
      let view ← view?
      some (view.methods.map Prod.fst, (view.partition eligible).elided.map Prod.fst)) =
        some ([3, 4, 5, 6], [0, 1, 2, 3, 4]) := by
    decide +kernel
  simp only [bind, Option.bind_eq_some_iff, Option.some.injEq, Prod.mk.injEq] at checked
  obtain ⟨tree, parsed, classification, classified, eligible, isEligible, _, resolved, view, rfl,
    methods, elided⟩ := checked
  replace parsed := eq_ok_of_toOption parsed
  replace classified := eq_ok_of_toOption classified
  rw [Classification.eq_of_eligible? isEligible] at classified
  obtain ⟨same, tokens, found, lexed, alike⟩ := elides_accessor_iff_of_parse parsed classified
  cases (eq_ok_of_toOption resolved).symm.trans found
  exact ⟨tree, eligible, view, tokens, parsed, classified, found, lexed, methods, elided, alike⟩

end JavaRecords
