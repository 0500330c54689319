import JavaRecords.Proofs.Code.Declared
import JavaRecords.Proofs.Code.Scanned
import JavaRecords.Proofs.Conversion.Targets

set_option autoImplicit false

namespace JavaRecords

/-- The parameters of a constructor or a method. -/
def Node.params : Node → List Param
  | .constructor decl => decl.params
  | .method decl => decl.params
  | _ => []

theorem Node.writingCode?_of_labelledBody? {node : Node} {label : Text} {body : Body}
    (labelled : node.labelledBody? = some (label, body)) :
    node.writingCode? = some (body.text, node.params.map Param.name) := by
  cases node with
  | constructor decl =>
      cases labelled
      rfl
  | method decl =>
      obtain ⟨found, isSome, same⟩ := Option.map_eq_some_iff.mp labelled
      cases same
      simp [writingCode?, isSome, params]
  | initializer decl =>
      cases labelled
      rfl
  | _ => cases labelled

/-- A write to a component in a member that writes none is to a bare name that the
member declares. -/
theorem shadowed_of_componentWrittenBy? {node : Node} {components : List Component} {text : Text}
    {params : List Text} {code : Code} (quiet : componentWrittenBy? node components = none)
    (scanned : node.writingCode? = some (text, params)) (read : Code.read text = .ok code)
    {write : VariableWrite} (found : write ∈ Code.writesFrom [] code.tokens)
    {component : Component} (listed : component ∈ components) (same : component.name = write.name) :
    write.qualified = false ∧
      (write.name ∈ params ∨ write.name ∈ Code.declaredFrom [] [] code.tokens) := by
  unfold componentWrittenBy? at quiet
  rw [scanned] at quiet
  simp only [scanWrites, scanDeclaredNames, read, bind, pure, Option.bind, Except.bind, Except.pure,
    Except.toOption, Option.getD_some] at quiet
  split at quiet
  · rename_i none
    have here := List.find?_eq_none.mp none write found
    have isComponent : (components.any fun component => component.name == write.name) = true :=
      List.any_eq_true.mpr ⟨component, listed, beq_iff_eq.mpr same⟩
    simp only [isComponent, Bool.true_and, Bool.or_eq_true, Bool.not_eq_true', not_or,
      Bool.not_eq_true, Bool.not_eq_false] at here
    refine ⟨here.1, ?_⟩
    simpa using here.2
  · cases quiet

namespace ClassView

/-- A class that can become a record writes no component outside its canonical constructor. -/
theorem quiet_of_classify {view : ClassView} {eligible : Eligible}
    (classified : view.classify = .eligible eligible) :
    ∀ member ∈ view.members, member.id ≠ eligible.canonical →
      componentWrittenBy? member.node eligible.components = none := by
  unfold classify classifyWithDiagnostics at classified
  split at classified
  · cases classified
  · split at classified
    · cases classified
    · rename_i components _ _ canonical others _
      cases stray : view.strayWrite? components canonical with
      | some reason =>
          rw [stray] at classified
          cases classified
      | none =>
          rw [stray] at classified
          cases classified
          exact (view.strayWrite?_eq_none_iff components canonical).mp stray

end ClassView

namespace SyntaxTree

/-- A class that can become a record can be looked up. -/
theorem exists_view_of_eligible {tree : SyntaxTree} {id : NodeId} {eligible : Eligible}
    (classified : tree.classify id = .ok (.eligible eligible)) :
    ∃ view, tree.resolveClass id = .ok (some view) ∧ view.classify = .eligible eligible := by
  unfold classify at classified
  cases resolved : tree.resolveClass id with
  | error violation =>
      rw [resolved] at classified
      cases classified
  | ok view? =>
      rw [resolved] at classified
      cases view? with
      | none => cases classified
      | some view => exact ⟨view, rfl, Except.ok.inj classified⟩

/-- A class that can become a record writes no component outside its canonical constructor. -/
theorem quiet_of_classify {tree : SyntaxTree} {id : NodeId} {eligible : Eligible}
    (classified : tree.classify id = .ok (.eligible eligible)) :
    ∃ decl, tree.class? id = some decl ∧ ∀ member ∈ decl.members, member ≠ eligible.canonical →
      ∀ node, tree.node? member = some node →
        componentWrittenBy? node eligible.components = none := by
  obtain ⟨view, resolved, found⟩ := exists_view_of_eligible classified
  obtain ⟨decl, members, present, read, rfl⟩ := (tree.resolveClass_eq_some_iff _ _).mp resolved
  have quiet := ClassView.quiet_of_classify found
  obtain ⟨ids, _, _, known⟩ := resolveMembers_sound read
  refine ⟨decl, present, fun member listed other node found => ?_⟩
  rw [← ids] at listed
  obtain ⟨entry, among, rfl⟩ := List.mem_map.mp listed
  have same := (known entry among).symm.trans found
  cases same
  exact quiet entry among other

end SyntaxTree

namespace ParsedUnit

variable {source : Text} {tree : SyntaxTree} (unit : ParsedUnit source tree)

include unit

theorem exists_read_body {id : NodeId} {node : Node} (found : tree.node? id = some node)
    {label : Text} {body : Body} (labelled : node.labelledBody? = some (label, body)) :
    ∃ block code distance, node.HasBlock source unit.tokens body block ∧
      Code.read body.text = .ok code ∧ Code.Marks [] [] code.tokens ∧
      (code.tokens.map CodeToken.token).map (Token.slide distance) = block.map (Token.slide 0) := by
  obtain ⟨run, inside, braced, isBody, hasBlock⟩ := unit.exists_block found labelled
  obtain ⟨opening, within, closing, rfl, _⟩ := braced
  obtain ⟨code, read, marks, moved⟩ := Code.exists_read_text unit.chain unit.placed inside
  rw [← Code.text_of_body isBody] at read
  exact ⟨_, code, _, hasBlock, read, marks, moved⟩

end ParsedUnit

/-- In a class that can become a record, no body but that of the canonical constructor writes a
component as a field of `this`. -/
theorem SyntaxTree.not_writesField_of_parse {source : Text} {tree : SyntaxTree}
    (parsed : parse source = .ok tree) {id : NodeId} {eligible : Eligible}
    (classified : tree.classify id = .ok (.eligible eligible)) :
    ∃ decl tokens, tree.class? id = some decl ∧ lex source = .ok tokens ∧
      ∀ member ∈ decl.members, member ≠ eligible.canonical → ∀ node label body,
        tree.node? member = some node → node.labelledBody? = some (label, body) →
          ∃ block, node.HasBlock source tokens body block ∧
            ∀ component ∈ eligible.components, ¬ Token.WritesField block component.name := by
  obtain ⟨unit⟩ := ParsedUnit.exists_of_parse parsed
  obtain ⟨decl, present, quiet⟩ := quiet_of_classify classified
  refine ⟨decl, unit.tokens, present, unit.lex_source, ?_⟩
  intro member listed other node label body found labelled
  obtain ⟨block, code, distance, hasBlock, read, marks, moved⟩ :=
    unit.exists_read_body found labelled
  refine ⟨block, hasBlock, fun component among writes => ?_⟩
  rw [← Token.writesField_slide 0, ← moved, Token.writesField_slide] at writes
  obtain ⟨write, isWrite, name, qualified⟩ := Code.exists_write_of_writesField marks writes
  have bare := (shadowed_of_componentWrittenBy? (quiet member listed other node found)
    (Node.writingCode?_of_labelledBody? labelled) read isWrite among name.symm).1
  rw [qualified] at bare
  cases bare

/-- A class whose other constructor, method and initializers write only what they declare. -/
def shadowedPoint : Text :=
  ("class P\x7bprivate final int x;static int n;P(int x)\x7bthis.x=x;\x7dP()\x7bthis(0);\x7d" ++
    "int f(int x)\x7bx=2;return this.x==x?0:1;\x7dstatic\x7bint x=0;x++;P.n=x;\x7d\x7d").toList

/-- What is known of a class that can become a record. -/
def Classification.eligible? : Classification → Option Eligible
  | .eligible known => some known
  | .ineligible _ => none

theorem Classification.eq_of_eligible? {classification : Classification} {eligible : Eligible}
    (found : classification.eligible? = some eligible) : classification = .eligible eligible := by
  cases classification with
  | eligible own =>
      cases found
      rfl
  | ineligible reason => cases found

theorem SyntaxTree.shadowedPoint_classify : ∃ tree eligible, parse shadowedPoint = .ok tree ∧
    tree.classify 6 = .ok (.eligible eligible) ∧ eligible.canonical = 2 := by
  have canonical : (do
      let tree ← (parse shadowedPoint).toOption
      let classification ← (tree.classify 6).toOption
      let eligible ← classification.eligible?
      some eligible.canonical) = some 2 := by
    decide +kernel
  simp only [bind, Option.bind_eq_some_iff, Option.some.injEq] at canonical
  obtain ⟨tree, parsed, classification, classified, eligible, isEligible, canonical⟩ := canonical
  refine ⟨tree, eligible, eq_ok_of_toOption parsed, ?_, canonical⟩
  rw [← Classification.eq_of_eligible? isEligible]
  exact eq_ok_of_toOption classified

theorem SyntaxTree.shadowedPoint_not_writesField_of_parse :
    ∃ tree eligible, parse shadowedPoint = .ok tree ∧
      tree.classify 6 = .ok (.eligible eligible) ∧
      ∃ decl tokens, tree.class? 6 = some decl ∧ lex shadowedPoint = .ok tokens ∧
        ∀ member ∈ decl.members, member ≠ eligible.canonical → ∀ node label body,
          tree.node? member = some node → node.labelledBody? = some (label, body) →
            ∃ block, node.HasBlock shadowedPoint tokens body block ∧
              ∀ component ∈ eligible.components, ¬ Token.WritesField block component.name := by
  obtain ⟨tree, eligible, parsed, classified, _⟩ := shadowedPoint_classify
  exact ⟨tree, eligible, parsed, classified, not_writesField_of_parse parsed classified⟩

/-- In a class that can become a record, a body but that of the canonical constructor writes a bare
name of a component only if the name is a parameter, the body declares it, it follows a `>` that
ends no type, or it is a keyword. -/
theorem SyntaxTree.declares_of_parse {source : Text} {tree : SyntaxTree}
    (parsed : parse source = .ok tree) {id : NodeId} {eligible : Eligible}
    (classified : tree.classify id = .ok (.eligible eligible)) :
    ∃ decl tokens, tree.class? id = some decl ∧ lex source = .ok tokens ∧
      ∀ member ∈ decl.members, member ≠ eligible.canonical → ∀ node label body,
        tree.node? member = some node → node.labelledBody? = some (label, body) →
          ∃ block, node.HasBlock source tokens body block ∧
            ∀ component ∈ eligible.components, Token.WritesName block component.name →
              component.name ∈ node.params.map Param.name ∨ Token.Declares block component.name ∨
                Token.FollowsAngle block component.name ∨ isKeyword component.name = true := by
  obtain ⟨unit⟩ := ParsedUnit.exists_of_parse parsed
  obtain ⟨decl, present, quiet⟩ := quiet_of_classify classified
  refine ⟨decl, unit.tokens, present, unit.lex_source, ?_⟩
  intro member listed other node label body found labelled
  obtain ⟨block, code, distance, hasBlock, read, marks, moved⟩ :=
    unit.exists_read_body found labelled
  refine ⟨block, hasBlock, fun component among writes => ?_⟩
  cases free : isKeyword component.name with
  | true => exact Or.inr (Or.inr (Or.inr rfl))
  | false =>
      rw [← Token.writesName_slide 0, ← moved, Token.writesName_slide] at writes
      obtain ⟨write, isWrite, name, _⟩ := Code.exists_write_of_writesName marks writes free
      have shadowed := (shadowed_of_componentWrittenBy? (quiet member listed other node found)
        (Node.writingCode?_of_labelledBody? labelled) read isWrite among name.symm).2
      rw [name] at shadowed
      rcases shadowed with param | declared
      · exact Or.inl param
      · rcases Code.declares_of_mem_declaredFrom marks declared with declares | follows
        · rw [← Token.declares_slide distance, moved, Token.declares_slide] at declares
          exact Or.inr (Or.inl declares)
        · rw [← Token.followsAngle_slide distance, moved, Token.followsAngle_slide] at follows
          exact Or.inr (Or.inr (Or.inl follows))

theorem SyntaxTree.shadowedPoint_declares_of_parse :
    ∃ tree eligible, parse shadowedPoint = .ok tree ∧
      tree.classify 6 = .ok (.eligible eligible) ∧
      ∃ decl tokens, tree.class? 6 = some decl ∧ lex shadowedPoint = .ok tokens ∧
        ∀ member ∈ decl.members, member ≠ eligible.canonical → ∀ node label body,
          tree.node? member = some node → node.labelledBody? = some (label, body) →
            ∃ block, node.HasBlock shadowedPoint tokens body block ∧
              ∀ component ∈ eligible.components, Token.WritesName block component.name →
                component.name ∈ node.params.map Param.name ∨ Token.Declares block component.name ∨
                  Token.FollowsAngle block component.name ∨ isKeyword component.name = true := by
  obtain ⟨tree, eligible, parsed, classified, _⟩ := shadowedPoint_classify
  exact ⟨tree, eligible, parsed, classified, declares_of_parse parsed classified⟩

/-- A class with a write behind a comparison. -/
def comparedPoint : Text :=
  ("class P\x7bprivate final int x;P(int x)\x7bthis.x=x;\x7d" ++
    "void m()\x7bif(1>x)x=2;\x7d\x7d").toList

/-- A write behind a comparison is overlooked: no parameter has the name, and the body declares it
nowhere. -/
theorem SyntaxTree.comparedPoint_overlooks_write :
    ∃ tree eligible decl tokens node label body block, parse comparedPoint = .ok tree ∧
      tree.classify 3 = .ok (.eligible eligible) ∧ tree.class? 3 = some decl ∧
      lex comparedPoint = .ok tokens ∧ 2 ∈ decl.members ∧ 2 ≠ eligible.canonical ∧
      tree.node? 2 = some node ∧ node.labelledBody? = some (label, body) ∧
      node.HasBlock comparedPoint tokens body block ∧ ∃ component ∈ eligible.components,
        Token.WritesName block component.name ∧
        ¬ (component.name ∈ node.params.map Param.name ∨ Token.Declares block component.name) := by
  have checked : (do
      let tree ← (parse comparedPoint).toOption
      let classification ← (tree.classify 3).toOption
      let eligible ← classification.eligible?
      let decl ← tree.class? 3
      let tokens ← (lex comparedPoint).toOption
      let node ← tree.node? 2
      let entry ← node.labelledBody?
      let excerpt ← node.source?
      let component ← eligible.components.head?
      let block := Token.codeBetween tokens
        (excerpt.range.stop - Text.byteSize entry.2.text) excerpt.range.stop
      some (decide (2 ∈ decl.members ∧ 2 ≠ eligible.canonical ∧
        Token.WritesName block component.name ∧
        ¬ (component.name ∈ node.params.map Param.name ∨
          Token.Declares block component.name)))) = some true := by
    decide +kernel
  simp only [bind, Option.bind_eq_some_iff, Option.some.injEq, decide_eq_true_eq] at checked
  obtain ⟨tree, parsed, classification, classified, eligible, isEligible, decl, present,
    tokens, lexed,
    node, found, ⟨label, body⟩, labelled, excerpt, isSource, component, first, listed,
    other, writes, undeclared⟩ := checked
  replace parsed := eq_ok_of_toOption parsed
  replace lexed := eq_ok_of_toOption lexed
  obtain ⟨unit⟩ := ParsedUnit.exists_of_parse parsed
  obtain ⟨block, _, _, _, hasBlock⟩ := unit.exists_block found labelled
  have same : unit.tokens = tokens := by
    rw [unit.lex_source] at lexed
    exact Except.ok.inj lexed
  rw [same] at hasBlock
  rw [← hasBlock.eq_codeBetween isSource] at writes undeclared
  rw [Classification.eq_of_eligible? isEligible] at classified
  exact ⟨tree, eligible, decl, tokens, node, label, body, _, parsed, eq_ok_of_toOption classified,
    present, lexed, listed, other, found, labelled, hasBlock, component,
    List.mem_of_mem_head? first, writes, undeclared⟩

end JavaRecords
