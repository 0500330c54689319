import JavaRecords.Proofs.Conversion.Reread

set_option autoImplicit false

namespace JavaRecords

def ClassDecl.headerWords (decl : ClassDecl) : List Word :=
  -- the modifiers, the keyword and the name stand before them
  let words := decl.source.text.words.drop (decl.headerPrefix.words.length + 2)
  let params := (decl.typeParams.getD []).words.length
  words.take params ++ (words.drop params).takeWhile fun word => !word.isPunct '{'

/-- A source whose parentheses and braces are nested. No header of a class, and no type of
a component of a class that is converted, has a parenthesis, a brace, a semicolon or an
equals sign. -/
structure SyntaxTree.Regular (tree : SyntaxTree) : Prop where
  nested : Word.Nested tree.source.words
  headers : ∀ id decl, tree.class? id = some decl → ∀ word ∈ decl.headerWords, word.isPlain = true
  types : ∀ id decl, isReported tree.convertUnit.reports id = true → tree.class? id = some decl →
    ∀ field ∈ tree.instanceFieldsOf decl, ∀ word ∈ field.ty.words, word.isPlain = true

theorem SyntaxTree.mem_instanceFieldsOf {tree : SyntaxTree} {decl : ClassDecl} {member : NodeId}
    {field : FieldDecl} (listed : member ∈ decl.members)
    (found : tree.node? member = some (.field field))
    (notStatic : field.modifiers.has .static = false) : field ∈ tree.instanceFieldsOf decl := by
  refine List.mem_filterMap.mpr ⟨member, listed, ?_⟩
  simp [found, notStatic]

namespace Code

theorem length_words (code : List CodeToken) : (words code).length = code.length := by
  cases code <;> simp [words]

theorem drop_words (code : List CodeToken) (count : Nat) :
    (words code).drop (count + 1) = (code.drop (count + 1)).map CodeToken.word := by
  cases code with
  | nil => rfl
  | cons first rest => simp [words, List.map_drop]

theorem Proper.words_text {code part : List CodeToken} (proper : Proper code)
    (inside : part <:+: code) :
    (text part).words = words part := by
  obtain ⟨tail, chain⟩ := proper.chain
  obtain ⟨rest, chainPart⟩ := chain_of_infix chain inside
  exact Code.words_text (chain_run chainPart) (proper.bound.of_infix inside)

end Code

namespace ClassLayout

variable {site : Site} {shape : ClassShape} (layout : ClassLayout site.piece shape)

include layout

theorem words_headerPrefix (proper : Code.Proper site.piece.tokens) :
    shape.headerPrefix.words = Code.words layout.taken := by
  have front : layout.taken ++ [layout.keyword] <:+: site.piece.tokens := by
    rw [layout.tokens]
    exact ⟨[], layout.name :: (layout.params ++ (shape.clauses ++
      shape.opening :: (shape.inside ++ [shape.closing]))), by simp⟩
  obtain ⟨tail, chain⟩ := proper.chain
  obtain ⟨rest, chainFront⟩ := Code.chain_of_infix chain front
  rw [layout.headerPrefix]
  exact Code.words_headerPrefix chainFront (proper.bound.of_infix front)

theorem words_typeParams (proper : Code.Proper site.piece.tokens) :
    (shape.typeParams.getD []).words = Code.words layout.params := by
  rcases layout.typeParams with ⟨absent, none⟩ | ⟨present, _⟩
  · rw [absent, none]
    exact Text.words_nil
  · rw [present]
    exact proper.words_text layout.params_infix

/-- The header of a class is what stands between its name and its body. -/
theorem headerWords_eq (proper : Code.Proper site.piece.tokens) (package : Option Text)
    (members : List NodeId) (source : Text) :
    (shape.decl package members (site.placed source).source).headerWords =
      layout.header.map CodeToken.word := by
  have written : (site.placed source).source.text.words = Code.words site.piece.tokens :=
    proper.words_text (List.infix_refl _)
  have named : site.piece.tokens.drop (layout.taken.length + 2) = layout.params ++
      (shape.clauses ++ shape.opening :: (shape.inside ++ [shape.closing])) := by
    rw [layout.tokens, List.drop_length_add_append]
    rfl
  have dropped := Code.drop_words site.piece.tokens (layout.taken.length + 1)
  rw [named, List.map_append, List.map_append, List.map_cons] at dropped
  have punct : ∀ (code : CodeToken) (c : Char), code.isPunct c = code.word.isPunct c :=
    fun code c => Code.isPunct_of_fits (.refl code.word) c
  have clauses : ∀ word ∈ shape.clauses.map CodeToken.word, (!word.isPunct '{') = true := by
    intro word listed
    obtain ⟨code, among, rfl⟩ := List.mem_map.mp listed
    rw [← punct, layout.clauses code among]
    rfl
  have opening : ¬ (!shape.opening.word.isPunct '{') = true := by
    rw [← punct, layout.opening]
    decide
  have params : (shape.typeParams.getD []).words.length =
    (layout.params.map CodeToken.word).length := by
    rw [layout.words_typeParams proper, Code.length_words, List.length_map]
  have modifiers : shape.headerPrefix.words.length = layout.taken.length := by
    rw [layout.words_headerPrefix proper, Code.length_words]
  simp only [ClassDecl.headerWords, ClassShape.decl, written, params, modifiers, dropped,
    List.take_left, List.drop_left]
  rw [List.takeWhile_append_of_pos clauses,
    List.takeWhile_cons_of_neg (p := fun word : Word => !word.isPunct '{') opening, List.append_nil,
    header, List.map_append]

theorem plain_of_headerWords (proper : Code.Proper site.piece.tokens) (package : Option Text)
    (members : List NodeId) (source : Text)
    (plain : ∀ word ∈ (shape.decl package members (site.placed source).source).headerWords,
      word.isPlain = true) : ∀ code ∈ layout.header, code.token.isPlain = true := by
  rw [layout.headerWords_eq proper] at plain
  have reads : Code.Reads layout.header (layout.header.map CodeToken.word) :=
    List.forall₂_map_right_iff.mpr (List.forall₂_same.mpr fun _ _ => .refl _)
  exact reads.plain_iff.mpr plain

/-- Type parameters start with an angle bracket. -/
theorem angle_of_params : ∀ code ∈ layout.params.head?, code.isPunct '<' = true := by
  intro angle isFirst
  obtain ⟨rest, split⟩ := List.head?_eq_some_iff.mp isFirst
  have read := layout.typeParams?
  rw [split, List.cons_append, Code.typeParams?] at read
  split at read
  · assumption
  · rcases layout.typeParams with ⟨_, none⟩ | ⟨present, _⟩
    · rw [split] at none
      cases none
    · rw [present] at read
      cases read

theorem regular_record (proper : Code.Proper site.piece.tokens)
    (plain : ∀ code ∈ layout.header, code.token.isPlain = true) {record : RecordDecl}
    (headerPrefix : record.headerPrefix = shape.headerPrefix)
    (typeParams : record.typeParams = shape.typeParams)
    (interfaces : record.interfaces = Code.headerClause? "implements" shape.clauses)
    (components : ∀ component ∈ record.components, Word.Nested component.words) :
    record.Regular layout.taken := by
  have plainWords : ∀ part : List CodeToken, part ⊆ layout.header →
      ∀ word ∈ Code.words part, word.isPlain = true := fun part inside =>
    (Code.reads_words part).plain_iff.mp fun code listed => plain code (inside listed)
  refine ⟨?_, ?_, ?_, components, ?_⟩
  · rw [headerPrefix, layout.words_headerPrefix proper]
  · rw [typeParams, layout.words_typeParams proper]
    exact plainWords _ (List.subset_append_left _ _)
  · rw [typeParams, layout.words_typeParams proper]
    cases split : layout.params with
    | nil => exact fun _ absent => (by cases absent)
    | cons angle rest =>
        intro word isFirst
        cases isFirst
        exact layout.angle_of_params angle (by rw [split]; rfl)
  · rw [RecordDecl.clauseWords, interfaces]
    cases found : Code.headerClause? "implements" shape.clauses with
    | none => exact fun _ listed => absurd listed List.not_mem_nil
    | some clause =>
        obtain ⟨part, inside, rfl⟩ := Code.headerClause?_infix found
        intro word listed
        rcases List.mem_cons.mp listed with rfl | among
        · exact Word.isPlain_name _
        · rw [proper.words_text (inside.trans layout.clauses_infix)] at among
          exact plainWords part (fun _ isPart => List.mem_append_right _ (inside.subset isPart))
            word among

end ClassLayout

theorem FieldDecl.nested_component {className : Text} {position : Nat} {piece : Piece}
    {source : Excerpt} {decl : FieldDecl} (proper : Code.Proper piece.tokens)
    (shaped : Code.memberShape className position piece source = .ok (.node (.field decl)))
    (plain : ∀ word ∈ decl.ty.words, word.isPlain = true) : Word.Nested decl.toComponent.words := by
  obtain ⟨run, _, _, split, read, _, _, field⟩ := Code.field_of_memberShape shaped
  obtain ⟨isModifiers, _⟩ := Code.parts_of_field? field
  have annotations := Code.nested_of_modifiers proper.marks.marked proper.nested read
  have named : Word.Nested [Word.name decl.name] := Word.nested_of_plain fun word listed => by
    rw [List.mem_singleton.mp listed]
    exact Word.isPlain_name _
  refine Word.Nested.append (Word.Nested.append (Word.nested_flatten fun part listed => ?_)
    (Word.nested_of_plain plain)) named
  obtain ⟨written, among, rfl⟩ := List.mem_map.mp listed
  change written ∈ decl.modifiers.annotations at among
  rw [isModifiers] at among
  obtain ⟨part, inside, rfl, nested⟩ := annotations written among
  rw [proper.words_text inside]
  exact (Code.reads_words part).nested.mp nested

namespace Outline

theorem Shaped.nested_field {source className : Text} {position : Nat} {outline : Outline}
    {tree : SyntaxTree} (shaped : outline.Shaped source className position)
    (stands : outline.Stands source tree) (cut : Code.Cut outline.pieces)
    (proper : Code.Proper (outline.pieces.flatMap Piece.tokens)) {id : NodeId}
    (listed : id ∈ outline.ids) {decl : FieldDecl} (found : tree.node? id = some (.field decl))
    (plain : ∀ word ∈ decl.ty.words, word.isPlain = true) : Word.Nested decl.toComponent.words := by
  induction outline generalizing position with
  | nil => cases listed
  | leaf site node rest ih =>
      obtain ⟨own, cutRest, others⟩ := proper.cons cut
      rcases List.mem_cons.mp listed with rfl | later
      · rw [stands.1, Option.some.injEq] at found
        have isField := shaped.1
        rw [found] at isField
        exact FieldDecl.nested_component own isField plain
      · exact ih shaped.2 stands.2.2 cutRest others later
  | type site shape members rest _ ih =>
      obtain ⟨_, cutRest, others⟩ := proper.cons cut
      rcases List.mem_cons.mp listed with rfl | later
      · obtain ⟨package, isClass⟩ := stands.1
        rw [isClass] at found
        cases found
      · exact ih shaped.2.2 stands.2.2.2 cutRest others later

theorem Laid.regular {source : Text} {tree : SyntaxTree} {tail : List Token} {indent : Text}
    {cursor : Nat} {outline : Outline} (laid : outline.Laid source tail indent cursor)
    (formed : outline.Formed source) (stands : outline.Stands source tree)
    (cut : Code.Cut outline.pieces) (proper : Code.Proper (outline.pieces.flatMap Piece.tokens))
    (regular : tree.Regular) : outline.Regular tree.printing := by
  induction outline generalizing tail indent cursor with
  | nil => trivial
  | leaf site node rest ih =>
      obtain ⟨own, cutRest, others⟩ := proper.cons cut
      exact ⟨own, ih laid.2 formed stands.2.2 cutRest others⟩
  | type site shape members rest ihMembers ihRest =>
      obtain ⟨own, cutRest, others⟩ := proper.cons cut
      obtain ⟨_, closed, isPieces, memberLaid, restLaid⟩ := laid
      obtain ⟨declares, shaped, memberFormed, restFormed⟩ := formed
      obtain ⟨⟨package, found⟩, _, memberStands, restStands⟩ := stands
      obtain ⟨layout⟩ := ClassLayout.exists_of_declares declares
      have present := SyntaxTree.class?_of_node? found
      have plain := layout.plain_of_headerWords own package members.ids source
        (regular.headers site.id _ present)
      have inside : members.pieces.flatMap Piece.tokens = shape.inside := by
        rw [← isPieces]
        exact Code.flatMap_pieces closed
      have cutMembers : Code.Cut members.pieces := by
        rw [← isPieces]
        exact Code.cut_of_pieces closed
      have memberProper : Code.Proper (members.pieces.flatMap Piece.tokens) := by
        rw [inside]
        exact layout.proper_inside plain own (cut.completes _ List.mem_cons_self)
      refine ⟨own, ⟨layout, plain, ?_⟩, cutMembers,
        ihMembers memberLaid memberFormed memberStands cutMembers memberProper,
        ihRest restLaid restFormed restStands cutRest others⟩
      intro record converted
      obtain ⟨replacement, chosen, rfl⟩ := Option.map_eq_some_iff.mp converted
      obtain ⟨_, _, _, made⟩ := SyntaxTree.record_of_replacement chosen present
      refine layout.regular_record own plain (by rw [made]; rfl) (by rw [made]; rfl)
        (by rw [made]; rfl) ?_
      intro component listed
      have reported : isReported tree.convertUnit.reports site.id = true := by
        rw [isReported_eq, chosen]
        rfl
      obtain ⟨member, isMember, field, isField, notStatic, rfl⟩ :=
        SyntaxTree.field_of_component chosen present listed
      exact shaped.nested_field memberStands cutMembers memberProper isMember isField
        (regular.types site.id _ reported present field
          (SyntaxTree.mem_instanceFieldsOf isMember isField notStatic))

end Outline

namespace Code

/-- The words of a source are those of its code. -/
theorem found_ofTokens (tokens : List Token) :
    Word.found [] tokens = (ofTokens tokens).tokens.map CodeToken.word := by
  have joined := flat_ofTokens tokens
  obtain ⟨bound, tail⟩ := bound_ofTokens tokens
  have split := Word.found_append [] (flat (ofTokens tokens).tokens) (ofTokens tokens).tail
  rwa [joined, found_flat bound, Token.found_of_all tail, List.append_nil] at split

theorem reads_ofTokens {tokens : List Token} {words : List Word}
    (fits : List.Forall₂ Word.Fits (Word.found [] tokens) words) :
    Reads (ofTokens tokens).tokens words := by
  rw [found_ofTokens] at fits
  exact reads_iff.mpr fits

/-- A nested source is read as nested code. -/
theorem proper_ofTokens {tokens : List Token} {tail : Text} (placed : Token.Placed 0 tokens)
    (chain : Token.Chain tokens tail)
    (nested : Word.Nested (Word.headless (Word.found [] tokens))) :
    Proper (ofTokens tokens).tokens := by
  have reads := reads_ofTokens (Word.fits_headless (Word.found [] tokens))
  refine ⟨standing_ofTokens placed, (bound_ofTokens tokens).1, ?_, reads.nested.mpr nested⟩
  rw [← flat_ofTokens tokens, Token.chain_append] at chain
  exact ⟨_, chain.1⟩

end Code

theorem ParsedUnit.regular {source : Text} {tree : SyntaxTree} (unit : ParsedUnit source tree)
    (regular : tree.Regular) :
    Code.Cut unit.outline.pieces ∧ unit.outline.Regular tree.printing := by
  have cut : Code.Cut unit.outline.pieces := by
    rw [← unit.pieces]
    exact Code.cut_of_pieces unit.closed
  have nested := regular.nested
  rw [unit.source_eq, Text.words, unit.lexed] at nested
  have proper := Code.proper_ofTokens unit.placed unit.chain nested
  rw [← unit.code_eq] at proper
  exact ⟨cut, unit.adds.laid.regular unit.adds.shaped.formed unit.adds.stands cut proper regular⟩

end JavaRecords
