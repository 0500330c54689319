import JavaRecords.Proofs.Code.Assigned
import JavaRecords.Proofs.Conversion.Provided
import JavaRecords.Proofs.Conversion.Resolved

set_option autoImplicit false

namespace JavaRecords

/-- A constructor is canonical if its parameters and its statements agree with the components one by
one. -/
theorem isCanonical_iff (decl : ConstructorDecl) (components : List Component) :
    isCanonical decl components = true ↔
      List.Forall₂ (fun param component => sameType param.ty component.ty = true) decl.params
        components ∧
      List.Forall₂ (fun stmt pair => assignsComponent stmt pair.1 pair.2 = true)
        decl.body.statements (decl.params.zip components) := by
  simp only [isCanonical, Bool.and_eq_true, beq_iff_eq, List.all_eq_true, List.forall₂_iff_zip,
    List.length_zip, Prod.forall]
  constructor
  · rintro ⟨⟨⟨params, statements⟩, types⟩, assigns⟩
    rw [params, Nat.min_self]
    exact ⟨⟨rfl, types⟩, statements, assigns⟩
  · rintro ⟨⟨params, types⟩, statements, assigns⟩
    rw [params, Nat.min_self] at statements
    exact ⟨⟨⟨params, statements⟩, types⟩, assigns⟩

/-- A name starts with no slash. -/
theorem Text.IsName.head?_ne {name : Text} (isName : name.IsName) : name.head? ≠ some '/' := by
  obtain ⟨c, word, rfl, _, _, start⟩ := (isName [] Token.loose_nil).exists_first
  intro same
  exact (Token.plain_of_identStart (start rfl)).1 (Option.some.inj same)

theorem ClassView.mem_constructors {view : ClassView} {ctor : NodeId × ConstructorDecl} :
    ctor ∈ view.constructors ↔ ⟨ctor.1, .constructor ctor.2⟩ ∈ view.members := by
  unfold constructors
  rw [List.mem_filterMap]
  constructor
  · rintro ⟨⟨own, node⟩, listed, isConstructor⟩
    cases node <;> cases isConstructor
    exact listed
  · exact fun listed => ⟨_, listed, rfl⟩

theorem Code.statements_of_body {opening closing : CodeToken} {inside : List CodeToken}
    {found : Body} (read : body (opening :: (inside ++ [closing])) = .ok found) :
    (pieces statementRule inside).unclosed = none ∧
      found.statements = (pieces statementRule inside).pieces.map statement := by
  unfold body at read
  rw [List.tail_cons, List.dropLast_concat] at read
  dsimp only at read
  split at read
  · cases read
  · rename_i closed
    cases read
    exact ⟨closed, rfl⟩

namespace ParsedUnit

variable {source : Text} {tree : SyntaxTree} (unit : ParsedUnit source tree)

include unit

theorem isName_field {id : NodeId} {decl : FieldDecl} (found : tree.node? id = some (.field decl)) :
    decl.name.IsName := by
  rcases unit.exists_declaration (by rw [found]; rfl) with
    ⟨site, node, rest, rfl, among⟩ | ⟨site, shape, members, rfl, isClass⟩
  · cases among.stands.1.symm.trans found
    rcases among.shaped with inUnit | ⟨className, position, inClass⟩
    · cases inUnit.1
    · obtain ⟨layout⟩ := FieldLayout.exists_of_memberShape inClass.1
      have chain := unit.chain
      rw [← Code.flat_ofTokens unit.tokens, Token.chain_append] at chain
      rw [layout.nameText]
      exact Code.isName_of_mem chain.1 ((among.first_infix rfl).subset layout.isName) layout.isIdent
  · obtain ⟨package, present⟩ := isClass.present
    cases (SyntaxTree.node?_of_class? present).symm.trans found

/-- The body of a constructor only assigns components where the tokens in its braces set fields. -/
theorem isCanonical_iff_setsFields {id : NodeId} {decl : ConstructorDecl}
    (found : tree.node? id = some (.constructor decl)) {components : List Component}
    (named : ∀ component ∈ components, component.name.IsName) :
    ∃ opening inside closing, (Node.constructor decl).HasBlock source unit.tokens decl.body
        (opening :: (inside ++ [closing])) ∧
      (isCanonical decl components = true ↔
        List.Forall₂ (fun param component => sameType param.ty component.ty = true) decl.params
          components ∧
        Token.SetsFields unit.tokens
          ((decl.params.zip components).map fun pair => (pair.2.name, pair.1.name)) inside) := by
  obtain ⟨block, within, ⟨opening, inside, closing, rfl, _⟩, isBody, hasBlock⟩ :=
    unit.exists_block found (show _ = some (decl.name, decl.body) from rfl)
  obtain ⟨closed, statements⟩ := Code.statements_of_body isBody
  have part : inside <:+: (Code.ofTokens unit.tokens).tokens :=
    List.IsInfix.trans ⟨[opening], [closing], rfl⟩ within
  have each : ∀ pair ∈ decl.params.zip components, pair.2.name.head? ≠ some '/' :=
    fun pair listed => (named pair.2 (List.of_mem_zip listed).2).head?_ne
  refine ⟨opening.token, inside.map CodeToken.token, closing.token, by simpa using hasBlock, ?_⟩
  rw [isCanonical_iff, statements]
  refine and_congr_right fun _ => ⟨?_, ?_⟩
  · exact Code.setsFields_of_forall₂ unit.chain unit.located each part closed
  · exact Code.forall₂_of_setsFields unit.chain unit.located each part

end ParsedUnit

/-- The canonical constructors of a class are those with the parameters of its components whose
bodies set the field of each component to its parameter, in order, and have no other tokens. -/
theorem SyntaxTree.isCanonical_iff_of_parse {source : Text} {tree : SyntaxTree}
    (parsed : parse source = .ok tree) {id : NodeId} {decl : ClassDecl}
    (present : tree.class? id = some decl) :
    ∃ view tokens, tree.resolveClass id = .ok (some view) ∧ lex source = .ok tokens ∧
      ∀ components, (view.instanceFields.mapM fun field => ClassView.component field.1 field.2) =
          .ok components →
        ∀ ctor ∈ view.constructors, ∃ opening inside closing,
          (Node.constructor ctor.2).HasBlock source tokens ctor.2.body
            (opening :: (inside ++ [closing])) ∧
          (isCanonical ctor.2 components = true ↔
            List.Forall₂ (fun param component => sameType param.ty component.ty = true)
              ctor.2.params components ∧
            Token.SetsFields tokens
              ((ctor.2.params.zip components).map fun pair => (pair.2.name, pair.1.name))
              inside) := by
  obtain ⟨unit⟩ := ParsedUnit.exists_of_parse parsed
  obtain ⟨view, resolved⟩ := exists_view unit.bodied present (unit.proper present)
  obtain ⟨_, members, _, read, rfl⟩ := (tree.resolveClass_eq_some_iff _ _).mp resolved
  obtain ⟨_, _, _, nodes⟩ := resolveMembers_sound read
  refine ⟨_, unit.tokens, resolved, unit.lex_source, fun components made ctor listed => ?_⟩
  refine unit.isCanonical_iff_setsFields
    (nodes ⟨ctor.1, .constructor ctor.2⟩ (ClassView.mem_constructors.mp listed)) ?_
  intro component among
  rw [ClassView.eq_of_mapM_component made] at among
  obtain ⟨field, isField, rfl⟩ := List.mem_map.mp among
  exact unit.isName_field (nodes _ (ClassView.mem_instanceFields.mp isField).1)

/-- A class with two constructors that differ in where a comment stands. -/
def commentedPair : Text :=
  ("class P\x7bprivate final int x;private final int y;P(int a,int b)" ++
    "\x7bthis.x=a;this. y/*c*/=b\x7dP(int x,int y)\x7bthis.x=x;this./*c*/y=y;\x7d\x7d").toList

theorem SyntaxTree.commentedPair_isCanonical_iff_of_parse :
    ∃ tree decl view tokens components, parse commentedPair = .ok tree ∧ tree.class? 4 = some decl ∧
      tree.resolveClass 4 = .ok (some view) ∧ lex commentedPair = .ok tokens ∧
      (view.instanceFields.mapM fun field => ClassView.component field.1 field.2) = .ok components ∧
      (view.constructors.map fun ctor => isCanonical ctor.2 components) = [true, false] ∧
      ∀ ctor ∈ view.constructors, ∃ opening inside closing,
        (Node.constructor ctor.2).HasBlock commentedPair tokens ctor.2.body
          (opening :: (inside ++ [closing])) ∧
        (isCanonical ctor.2 components = true ↔
          List.Forall₂ (fun param component => sameType param.ty component.ty = true) ctor.2.params
            components ∧
          Token.SetsFields tokens
            ((ctor.2.params.zip components).map fun pair => (pair.2.name, pair.1.name))
            inside) := by
  have checked : (do
      let tree ← (parse commentedPair).toOption
      let decl ← tree.class? 4
      let view? ← (tree.resolveClass 4).toOption
      let view ← view?
      let components ← (view.instanceFields.mapM fun field =>
        ClassView.component field.1 field.2).toOption
      some (view.constructors.map fun ctor => isCanonical ctor.2 components)) =
        some [true, false] := by
    decide +kernel
  simp only [bind, Option.bind_eq_some_iff, Option.some.injEq] at checked
  obtain ⟨tree, parsed, decl, present, _, resolved, view, rfl, components, made, each⟩ := checked
  replace parsed := eq_ok_of_toOption parsed
  obtain ⟨same, tokens, found, lexed, alike⟩ := isCanonical_iff_of_parse parsed present
  cases (eq_ok_of_toOption resolved).symm.trans found
  replace made := eq_ok_of_toOption made
  exact ⟨tree, decl, view, tokens, components, parsed, present, found, lexed, made, each,
    alike components made⟩

end JavaRecords
