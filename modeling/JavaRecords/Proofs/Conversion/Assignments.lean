import JavaRecords.Proofs.Code.Assignments
import JavaRecords.Proofs.Conversion.Canonical

set_option autoImplicit false

namespace JavaRecords

namespace Code

/-- No piece ends with a dot. -/
theorem undotted_of_stopsPiece {code : CodeToken} (stops : Indexed.stopsPiece code = true) :
    code.isPunct '.' = false := by
  rcases Bool.or_eq_true_iff.mp stops with mark | mark
  · exact CodeToken.isPunct_of_isPunct mark '.'
  · exact CodeToken.isPunct_of_isPunct mark '.'

/-- A piece lies among the tokens that are cut, behind the ends of other pieces. -/
theorem exists_split_of_pieces {rule : PieceRule} {code : List CodeToken}
    (closed : (pieces rule code).unclosed = none) {found : List Piece}
    (cut : (pieces rule code).pieces = found) {piece : Piece} (listed : piece ∈ found) :
    ∃ before after, code = before ++ (piece.tokens ++ after) ∧
      (∀ last ∈ before.getLast?, Indexed.stopsPiece last = true) ∧
      (after = [] ∨ Indexed.stopsPiece piece.last = true) := by
  induction found generalizing code with
  | nil => cases listed
  | cons head others ih =>
      rcases code with _ | ⟨first, rest⟩
      · cases cut
      obtain ⟨own, behind, split, ends, cutOwn, closedBehind⟩ := exists_piece closed
      obtain ⟨rfl, cutBehind⟩ := List.cons.inj (cutOwn.symm.trans cut)
      rcases List.mem_cons.mp listed with rfl | among
      · exact ⟨[], behind, split, nofun, ends⟩
      · obtain ⟨before, after, rfl, starts, stops⟩ := ih closedBehind cutBehind among
        have stopsOwn : Indexed.stopsPiece own.last = true :=
          ends.resolve_left (by simp [Piece.tokens])
        refine ⟨own.tokens ++ before, after, by rw [split, List.append_assoc], ?_, stops⟩
        rcases List.eq_nil_or_concat' before with rfl | ⟨front, last, rfl⟩
        · rw [List.append_nil, Piece.getLast?_tokens]
          rintro last ⟨⟩
          exact stopsOwn
        · rw [← List.append_assoc, List.getLast?_concat]
          rintro other ⟨⟩
          exact starts last List.getLast?_concat

/-- A statement of a block that assigns a name or a field of `this` writes it. -/
theorem exists_writesAt_of_body {tokens : List Token} {tail : Text}
    (chain : Token.Chain tokens tail)
    {block : List CodeToken} (within : block <:+: (ofTokens tokens).tokens) (braced : Braced block)
    {found : Body} (read : body block = .ok found) {target : Expr} {op : AssignOp}
    {value : Option Expr} {written : Text}
    (listed : .assign target op value written ∈ found.statements) (plain : target.IsPlain) :
    ∃ place name, target.ident? = some name ∧ Token.WritesAt (block.map CodeToken.token) place name
      (target.shape == .thisField) op := by
  obtain ⟨opening, inside, closing, rfl, isOpening, isClosing⟩ := braced
  obtain ⟨closed, statements⟩ := statements_of_body read
  rw [statements] at listed
  obtain ⟨piece, among, isStatement⟩ := List.mem_map.mp listed
  obtain ⟨before, after, rfl, starts, stops⟩ := exists_split_of_pieces closed rfl among
  have split : opening :: (before ++ (piece.tokens ++ after) ++ [closing]) =
      (opening :: before) ++ (piece.tokens ++ (after ++ [closing])) := by
    simp
  rw [split] at within ⊢
  refine exists_writesAt_of_statement chain within ?_ (by simp) ?_ isStatement plain
  · rcases List.eq_nil_or_concat' before with rfl | ⟨front, last, rfl⟩
    · rintro last ⟨⟩
      exact CodeToken.isPunct_of_isPunct isOpening '.'
    · rw [← List.cons_append, List.getLast?_concat]
      rintro other ⟨⟩
      exact undotted_of_stopsPiece (starts last List.getLast?_concat)
  · exact stops.imp_left fun none => ⟨closing.token, [], by rw [none]; rfl, Or.inr isClosing⟩

end Code

namespace ParsedUnit

variable {source : Text} {tree : SyntaxTree} (unit : ParsedUnit source tree)

include unit

theorem exists_write {id : NodeId} {node : Node} (found : tree.node? id = some node) {label : Text}
    {body : Body} (labelled : node.labelledBody? = some (label, body)) :
    ∃ writes, scanWrites body.text = .ok writes ∧ ∀ target op value written,
      .assign target op value written ∈ body.statements → target.IsPlain → ∃ write ∈ writes,
        target.ident? = some write.name ∧ write.qualified = (target.shape == .thisField) ∧
        write.op = op := by
  obtain ⟨block, within, braced, isBody, -⟩ := unit.exists_block found labelled
  have ⟨opening, inside, closing, same, _⟩ := braced
  obtain ⟨code, read, marks, moved⟩ := Code.exists_read_text unit.chain unit.placed (same ▸ within)
  rw [← same] at moved read
  rw [← Code.text_of_body isBody] at read
  refine ⟨Code.writesFrom [] code.tokens, by rw [scanWrites, read]; rfl, ?_⟩
  intro target op value written listed plain
  obtain ⟨place, name, named, writes⟩ :=
    Code.exists_writesAt_of_body unit.chain within braced isBody listed plain
  rw [← Token.writesAt_slide 0, ← moved, Token.writesAt_slide] at writes
  obtain ⟨write, among, rfl, isQualified, isOp⟩ := Code.exists_write_of_writesAt marks writes
  exact ⟨write, among, named, isQualified, isOp⟩

end ParsedUnit

/-- The scan of a body finds each of its statements that assigns a name, or a field of `this`
without a comment in it, under the name of the target and by the operator of the statement. -/
theorem SyntaxTree.exists_write_of_parse {source : Text} {tree : SyntaxTree}
    (parsed : parse source = .ok tree) {id : NodeId} {node : Node}
    (found : tree.node? id = some node)
    {label : Text} {body : Body} (labelled : node.labelledBody? = some (label, body)) :
    ∃ writes, scanWrites body.text = .ok writes ∧ ∀ target op value written,
      .assign target op value written ∈ body.statements → target.IsPlain → ∃ write ∈ writes,
        target.ident? = some write.name ∧ write.qualified = (target.shape == .thisField) ∧
        write.op = op := by
  obtain ⟨unit⟩ := ParsedUnit.exists_of_parse parsed
  exact unit.exists_write found labelled

/-- A class whose constructor assigns with operators of all forms. -/
def counter : Text :=
  ("class C\x7bint x;int n;C(int a)" ++
    "\x7bx=a;this . n+=1;int b=--x;++n;this./*n*/n=b;this.x--\x7d\x7d").toList

theorem SyntaxTree.counter_exists_write_of_parse : ∃ tree node label body writes,
    parse counter = .ok tree ∧ tree.node? 2 = some node ∧ node.labelledBody? = some (label, body) ∧
    (∀ stmt ∈ [.assign ⟨"x".toList, .name⟩ .assign (some ⟨"a".toList, .name⟩) "x=a;".toList,
        .assign ⟨"this . n".toList, .thisField⟩ .add (some ⟨"1".toList, .other⟩)
          "this . n+=1;".toList,
        .assign ⟨"n".toList, .name⟩ .increment none "++n;".toList,
        .assign ⟨"this.x".toList, .thisField⟩ .decrement none "this.x--".toList],
      stmt ∈ body.statements) ∧
    (⟨"x".toList, .name⟩ : Expr).IsPlain ∧ (⟨"this . n".toList, .thisField⟩ : Expr).IsPlain ∧
    ¬ (⟨"this./*n*/n".toList, .thisField⟩ : Expr).IsPlain ∧
    scanWrites body.text = .ok writes ∧ ∀ target op value written,
      .assign target op value written ∈ body.statements → target.IsPlain → ∃ write ∈ writes,
        target.ident? = some write.name ∧ write.qualified = (target.shape == .thisField) ∧
        write.op = op := by
  have checked : ((parse counter).toOption.bind fun tree => (tree.node? 2).bind fun node =>
      node.labelledBody?.map fun labelled =>
        [.assign ⟨"x".toList, .name⟩ .assign (some ⟨"a".toList, .name⟩) "x=a;".toList,
          .assign ⟨"this . n".toList, .thisField⟩ .add (some ⟨"1".toList, .other⟩)
            "this . n+=1;".toList,
          .assign ⟨"n".toList, .name⟩ .increment none "++n;".toList,
          .assign ⟨"this.x".toList, .thisField⟩ .decrement none "this.x--".toList].all
            fun stmt => decide (stmt ∈ labelled.2.statements)) = some true := by
    decide +kernel
  simp only [Option.bind_eq_some_iff, Option.map_eq_some_iff, List.all_eq_true,
    decide_eq_true_eq] at checked
  obtain ⟨tree, parsed, node, found, ⟨label, body⟩, labelled, listed⟩ := checked
  replace parsed := eq_ok_of_toOption parsed
  obtain ⟨writes, scanned, each⟩ := exists_write_of_parse parsed found labelled
  exact ⟨tree, node, label, body, writes, parsed, found, labelled, listed, by decide +kernel,
    by decide +kernel, by decide +kernel, scanned, each⟩

end JavaRecords
