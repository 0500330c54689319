import JavaRecords.Proofs.Conversion.Parsed
import JavaRecords.Proofs.Print.Words

set_option autoImplicit false

namespace JavaRecords

namespace Code

theorem isName_of_mem {code : List CodeToken} {name : CodeToken} {tail : Text}
    (chain : Token.Chain (flat code) tail) (listed : name ∈ code) (isIdent : name.isIdent = true) :
    name.text.IsName := by
  obtain ⟨before, after, rfl⟩ := List.append_of_mem listed
  have kind : name.token.kind = .ident := by
    simpa [CodeToken.isIdent, Token.isIdent] using isIdent
  rw [flat_append, flat_cons, Token.chain_append, Token.chain_append] at chain
  obtain ⟨_, _, _, reads, _⟩ := chain
  rw [kind] at reads
  intro rest loose
  exact reads.of_looser (by decide) (loose.looser _)

theorem clauseTokens_isPrefix (angles : Nat) (code : List CodeToken) :
    clauseTokens angles code <+: code := by
  induction code generalizing angles with
  | nil => exact List.prefix_rfl
  | cons first rest ih =>
      unfold clauseTokens
      split
      · exact List.cons_prefix_cons.mpr ⟨rfl, ih _⟩
      · split
        · exact List.cons_prefix_cons.mpr ⟨rfl, ih _⟩
        · split
          · exact List.nil_prefix
          · exact List.cons_prefix_cons.mpr ⟨rfl, ih _⟩

theorem afterClauseKeyword?_suffix {keyword : String} {angles : Nat} {code rest : List CodeToken}
    (found : afterClauseKeyword? keyword angles code = some rest) : rest <:+ code := by
  induction code generalizing angles with
  | nil => cases found
  | cons first others ih =>
      unfold afterClauseKeyword? at found
      split at found
      · exact (ih found).trans (List.suffix_cons _ _)
      · split at found
        · exact (ih found).trans (List.suffix_cons _ _)
        · split at found
          · cases found
            exact List.suffix_cons _ _
          · exact (ih found).trans (List.suffix_cons _ _)

theorem headerClause?_infix {keyword : String} {code : List CodeToken} {clause : Text}
    (found : headerClause? keyword code = some clause) :
    ∃ part, part <:+: code ∧ clause = text part := by
  unfold headerClause? at found
  split at found
  · cases found
  · rename_i rest after
    split at found
    · cases found
    · cases found
      exact ⟨_, (clauseTokens_isPrefix 0 rest).isInfix.trans
        (afterClauseKeyword?_suffix after).isInfix, rfl⟩

end Code

/-- The indentation of a declaration is blank. -/
theorem Code.blank_indentAt {source otherwise : Text} (offset : Nat) (blank : otherwise.Blank) :
    (indentAt source offset otherwise).Blank := by
  unfold indentAt
  cases cut : Text.splitAt? offset source with
  | none => exact blank
  | some halves =>
      rw [Option.bind_some, Text.indentation?]
      split
      · rename_i all
        exact fun c listed => List.all_eq_true.mp all c listed
      · exact blank

def FieldDecl.toComponent (decl : FieldDecl) : RecordComponent :=
  ⟨decl.name, decl.ty, decl.modifiers.annotations⟩

theorem FieldLayout.clean {piece : Piece} {decl : FieldDecl} (layout : FieldLayout piece decl)
    {tail : Text} (chain : Token.Chain (Code.flat piece.tokens) tail)
    (bound : Code.Bound piece.tokens) :
    decl.toComponent.Clean := by
  have clean : ∀ part ∈ layout.annotations ++ [layout.ty], (Code.text part).Clean :=
    fun part listed => Code.clean_of_infix chain bound (layout.infixes part listed)
  refine ⟨?_, ?_, ?_⟩
  · intro written listed
    rw [FieldDecl.toComponent, layout.annotationTexts] at listed
    obtain ⟨part, isPart, rfl⟩ := List.mem_map.mp listed
    exact clean part (List.mem_append_left _ isPart)
  · rw [FieldDecl.toComponent, layout.tyText]
    exact Code.clean_withDims (clean layout.ty (List.mem_append_right _ List.mem_cons_self))
      layout.dims
  · rw [FieldDecl.toComponent, layout.nameText]
    exact Code.isName_of_mem chain layout.isName layout.isIdent

namespace ClassView

theorem eq_of_mapM_component {fields : List (NodeId × FieldDecl)} {given : List Component}
    (read : fields.mapM (fun field => component field.1 field.2) = .ok given) :
    given = fields.map fun field =>
      ⟨field.1, field.2.name, field.2.ty, field.2.modifiers.annotations⟩ := by
  have each := mapM_component_eq_ok_iff.mp read
  clear read
  induction each with
  | nil => rfl
  | @cons field own rest others first _ ih =>
      unfold component at first
      split at first
      · cases first
      · split at first
        · cases first
        · cases first
          rw [List.map_cons, ← ih]

theorem of_eligible {view : ClassView} {eligible : Eligible}
    (found : view.classify = .eligible eligible) :
    view.components = .ok eligible.components ∧
      (view.members.find? (isCanonicalMember eligible.components)).map Member.id =
        some eligible.canonical := by
  unfold classify classifyWithDiagnostics at found
  split at found
  · cases found
  · rename_i components given
    have head := head?_canonicalConstructors view components
    split at found
    · cases found
    · rename_i canonical others listed
      dsimp only at found
      split at found
      · cases found
      · cases found
        rw [listed] at head
        exact ⟨given, head.symm⟩

theorem components_of_eligible {view : ClassView} {eligible : Eligible}
    (found : view.classify = .eligible eligible) :
    eligible.components = view.instanceFields.map fun field =>
      ⟨field.1, field.2.name, field.2.ty, field.2.modifiers.annotations⟩ := by
  have given := (of_eligible found).1
  unfold ClassView.components at given
  split at given
  · cases given
  · split at given
    · cases given
    · split at given
      · cases given
      · cases given
      · rename_i read
        cases given
        exact eq_of_mapM_component read

end ClassView

/-- What the header of a class is made of can be written again in front of other text. -/
structure ClassShape.Clean (shape : ClassShape) : Prop where
  headerPrefix : ∀ more others notes, Word.Headless others →
    Tells ("record".toList ++ more) others notes →
    Tells (shape.headerPrefix ++ ("record".toList ++ more)) (shape.headerPrefix.words ++ others)
      (shape.headerPrefix.notes ++ notes)
  name : shape.name.IsName
  typeParams : (shape.typeParams.getD []).Clean ∧ Token.Loose (shape.typeParams.getD [])
  interfaces : ∀ interfaces, Code.headerClause? "implements" shape.clauses = some interfaces →
    Text.Clean interfaces

namespace ClassLayout

variable {piece : Piece} {shape : ClassShape} (layout : ClassLayout piece shape)

include layout

theorem params_infix : layout.params <:+: piece.tokens := by
  rw [layout.tokens]
  exact ⟨layout.taken ++ [layout.keyword, layout.name],
    shape.clauses ++ shape.opening :: (shape.inside ++ [shape.closing]), by simp⟩

theorem clauses_infix : shape.clauses <:+: piece.tokens := by
  rw [layout.tokens]
  exact ⟨layout.taken ++ layout.keyword :: layout.name :: layout.params,
    shape.opening :: (shape.inside ++ [shape.closing]), by simp⟩

/-- Type parameters start with an angle bracket. -/
theorem loose_params : Token.Loose (Code.text layout.params) := by
  cases split : layout.params with
  | nil => exact Token.loose_nil
  | cons angle rest =>
      have read := layout.typeParams?
      rcases layout.typeParams with ⟨_, none⟩ | ⟨present, _⟩
      · rw [split] at none
        cases none
      · rw [split, present, List.cons_append, Code.typeParams?] at read
        split at read
        · rename_i isAngle
          have isText : angle.text = ['<'] := (isPunct_text isAngle).2
          rw [Code.text_cons, isText]
          exact Token.loose_cons (by decide) _
        · cases read

theorem clean {tail : Text} (chain : Token.Chain (Code.flat piece.tokens) tail)
    (bound : Code.Bound piece.tokens) : shape.Clean := by
  refine ⟨?_, ?_, ?_, ?_⟩
  · intro more others notes head tells
    have front : layout.taken ++ [layout.keyword] <:+: piece.tokens := by
      rw [layout.tokens]
      exact ⟨[], layout.name :: (layout.params ++ (shape.clauses ++
        shape.opening :: (shape.inside ++ [shape.closing]))), by simp⟩
    obtain ⟨rest, chainFront⟩ := Code.chain_of_infix chain front
    rw [layout.headerPrefix]
    exact Code.tells_headerPrefix chainFront layout.isClass head tells
  · rw [layout.nameText]
    exact Code.isName_of_mem chain (by rw [layout.tokens]; simp) layout.isName
  · rcases layout.typeParams with ⟨absent, _⟩ | ⟨present, _⟩
    · rw [absent]
      exact ⟨Text.clean_nil, Token.loose_nil⟩
    · rw [present]
      exact ⟨Code.clean_of_infix chain bound layout.params_infix, layout.loose_params⟩
  · intro interfaces found
    obtain ⟨part, inside, rfl⟩ := Code.headerClause?_infix found
    exact Code.clean_of_infix chain bound (inside.trans layout.clauses_infix)

end ClassLayout

namespace SyntaxTree

/-- The record of a class is made of its header and of its instance fields. -/
theorem record_of_replacement {tree : SyntaxTree} {id : NodeId} {replacement : Replacement}
    {decl : ClassDecl} (chosen : tree.replacements.lookup id = some replacement)
    (present : tree.class? id = some decl) :
    ∃ members, members.map Member.id = decl.members ∧
      (∀ member ∈ members, tree.node? member.id = some member.node) ∧
      replacement.record =
        { name := decl.name
          typeParams := decl.typeParams
          modifiers := decl.modifiers
          headerPrefix := decl.headerPrefix
          interfaces := decl.interfaces
          package := decl.package
          components := (ClassView.instanceFields ⟨id, decl, members⟩).map fun field =>
            field.2.toComponent
          members := replacement.partition.retained
          indent := decl.source.indent
          extent := decl.source.extent
          origin := id } := by
  obtain ⟨members, eligible, read, found, _, made⟩ := replacement_of_class chosen present
  obtain ⟨ids, _, _, nodes⟩ := resolveMembers_sound read
  refine ⟨members, ids, nodes, ?_⟩
  rw [made, ClassView.toRecord, ClassView.components_of_eligible found, List.map_map]
  rfl

theorem field_of_component {tree : SyntaxTree} {id : NodeId} {replacement : Replacement}
    {decl : ClassDecl} (chosen : tree.replacements.lookup id = some replacement)
    (present : tree.class? id = some decl) {component : RecordComponent}
    (listed : component ∈ replacement.record.components) :
    ∃ member ∈ decl.members, ∃ field, tree.node? member = some (.field field) ∧
      field.modifiers.has .static = false ∧ component = field.toComponent := by
  obtain ⟨resolved, ids, nodes, made⟩ := record_of_replacement chosen present
  rw [made] at listed
  obtain ⟨field, isInstance, rfl⟩ := List.mem_map.mp listed
  obtain ⟨isField, notStatic⟩ := List.mem_filter.mp isInstance
  obtain ⟨member, isMember, same⟩ := List.mem_filterMap.mp isField
  split at same
  · rename_i decl isNode
    cases same
    refine ⟨member.id, ?_, decl, ?_, by simpa using notStatic, rfl⟩
    · rw [← ids]
      exact List.mem_map_of_mem isMember
    · rw [nodes member isMember, isNode]
  · cases same

/-- The record of a class can be printed if its header and its fields can be written again. -/
theorem clean_of_replacement {tree : SyntaxTree} {id : NodeId} {replacement : Replacement}
    {shape : ClassShape} {package : Option Text} {members : List NodeId} {source : Excerpt}
    (chosen : tree.replacements.lookup id = some replacement)
    (present : tree.class? id = some (shape.decl package members source))
    (indent : source.indent.Blank) (header : shape.Clean)
    (fields : ∀ member ∈ members, ∀ decl, tree.node? member = some (.field decl) →
      decl.toComponent.Clean) : replacement.record.Clean := by
  obtain ⟨_, _, _, made⟩ := record_of_replacement chosen present
  have components : ∀ component ∈ replacement.record.components, component.Clean := by
    intro component listed
    obtain ⟨member, isMember, decl, isField, _, rfl⟩ := field_of_component chosen present listed
    exact fields member isMember decl isField
  rw [made] at components ⊢
  exact ⟨indent, header.headerPrefix, header.name, header.typeParams, components, header.interfaces⟩

end SyntaxTree

/-- A comment of the source can be written again in front of a line terminator. -/
theorem Comment.readable_of_mem {tokens : List Token} {tail : Text} {comment : Token}
    (chain : Token.Chain tokens tail) (listed : comment ∈ tokens)
    (isComment : comment.isComment = true) : (Comment.ofToken comment).Readable := by
  obtain ⟨before, after, rfl⟩ := List.append_of_mem listed
  obtain ⟨_, _, reads, _⟩ := Token.chain_append.mp chain
  exact ⟨comment.kind, _, isComment, reads⟩

theorem Code.mem_flat {code : List CodeToken} {token : CodeToken} {comment : Token}
    (listed : token ∈ code) (own : comment ∈ token.comments) : comment ∈ flat code :=
  List.mem_flatMap.mpr ⟨token, listed, List.mem_append_left _ own⟩

namespace Outline

/-- The members of each class are what its body declares. -/
def Formed (source : Text) : Outline → Prop
  | nil => True
  | leaf _ _ rest => rest.Formed source
  | type site shape members rest =>
      Code.Declares site.piece shape ∧ members.Shaped source shape.name 0 ∧
        members.Formed source ∧ rest.Formed source

theorem Shaped.formed {source className : Text} {position : Nat} {outline : Outline}
    (shaped : outline.Shaped source className position) : outline.Formed source := by
  induction outline generalizing className position with
  | nil => trivial
  | leaf site node rest ih => exact ih shaped.2
  | type site shape members rest ihMembers ihRest =>
      exact ⟨shaped.1, shaped.2.1, ihMembers shaped.2.1, ihRest shaped.2.2⟩

theorem UnitShaped.formed {source : Text} {outline : Outline}
    (shaped : outline.UnitShaped source) : outline.Formed source := by
  induction outline with
  | nil => trivial
  | leaf site node rest ih => exact ih shaped.2
  | type site shape members rest _ ihRest =>
      exact ⟨shaped.1.declares, shaped.2.1, shaped.2.1.formed, ihRest shaped.2.2⟩

/-- The fields among the members of a class can be written again. -/
theorem Shaped.clean_field {source className : Text} {position : Nat} {outline : Outline}
    {tree : SyntaxTree} {tail : Text} (shaped : outline.Shaped source className position)
    (stands : outline.Stands source tree)
    (chain : Token.Chain (Code.flat (outline.pieces.flatMap Piece.tokens)) tail)
    (bound : Code.Bound (outline.pieces.flatMap Piece.tokens)) {id : NodeId}
    (listed : id ∈ outline.ids) {decl : FieldDecl} (found : tree.node? id = some (.field decl)) :
    decl.toComponent.Clean := by
  induction outline generalizing position with
  | nil => cases listed
  | leaf site node rest ih =>
      rw [pieces, List.flatMap_cons, Code.flat_append, Token.chain_append] at chain
      rw [pieces, List.flatMap_cons, Code.Bound.append] at bound
      rcases List.mem_cons.mp listed with rfl | later
      · rw [stands.1, Option.some.injEq] at found
        have own := shaped.1
        rw [found] at own
        obtain ⟨layout⟩ := FieldLayout.exists_of_memberShape own
        exact layout.clean chain.1 bound.1
      · exact ih shaped.2 stands.2.2 chain.2 bound.2 later
  | type site shape members rest _ ih =>
      rw [pieces, List.flatMap_cons, Code.flat_append, Token.chain_append] at chain
      rw [pieces, List.flatMap_cons, Code.Bound.append] at bound
      rcases List.mem_cons.mp listed with rfl | later
      · obtain ⟨package, isClass⟩ := stands.1
        rw [isClass] at found
        cases found
      · exact ih shaped.2.2 stands.2.2.2 chain.2 bound.2 later

theorem comments_following {tail : List Token} {pieces : List Piece}
    (bound : Code.Bound (pieces.flatMap Piece.tokens))
    (comments : ∀ comment ∈ tail, comment.isComment = true) :
    ∀ comment ∈ Code.following tail pieces, comment.isComment = true := by
  cases pieces with
  | nil => exact comments
  | cons piece rest => exact (bound piece.first (by simp [Piece.tokens])).comments

/-- The comments of a conversion are those of its input. -/
def Moved (tree : SyntaxTree) (job : Printing) : Prop :=
  ∀ id, (tree.node? id).isSome → ∀ trivia, Commented tree id trivia →
    Commented job.tree (job.image id) trivia

/-- What the tokens of declarations and the comments after them are like. -/
structure Lexed (tail : List Token) (outline : Outline) : Prop where
  bound : Code.Bound (outline.pieces.flatMap Piece.tokens)
  comments : ∀ comment ∈ tail, comment.isComment = true
  chain : ∃ after, Token.Chain (Code.flat (outline.pieces.flatMap Piece.tokens) ++ tail) after

theorem Lexed.cons {tail : List Token} {outline rest : Outline} {piece : Piece}
    (lexed : outline.Lexed tail) (pieces : outline.pieces = piece :: rest.pieces) :
    Code.Bound piece.tokens ∧ (∃ after, Token.Chain (Code.flat piece.tokens) after) ∧
      rest.Lexed tail := by
  obtain ⟨bound, comments, after, chain⟩ := lexed
  rw [pieces, List.flatMap_cons, Code.Bound.append] at bound
  rw [pieces, List.flatMap_cons, Code.flat_append, List.append_assoc, Token.chain_append] at chain
  exact ⟨bound.1, ⟨_, chain.1⟩, bound.2, comments, after, chain.2⟩

/-- The comments of a piece can be written again. -/
theorem readable_of_piece {piece : Piece} {after : Text} (bound : Code.Bound piece.tokens)
    (chain : Token.Chain (Code.flat piece.tokens) after) {token : CodeToken}
    (listed : token ∈ piece.tokens) {comment : Token} (own : comment ∈ token.comments) :
    (Comment.ofToken comment).Readable :=
  Comment.readable_of_mem chain (Code.mem_flat listed own)
    ((bound token listed).comments comment own)

theorem SiteLaid.ready {job : Printing} {tail : List Token} {indent : Text} {cursor : Nat}
    {site : Site} {rest : Outline} {trivia : Trivia} (laid : SiteLaid tail indent cursor site rest)
    (bound : Code.Bound site.piece.tokens) (lexed : rest.Lexed tail) (blank : indent.Blank)
    (commented : Commented job.tree (job.image site.id) trivia)
    (leading : ∀ comment ∈ trivia.leading, comment.Readable)
    (dangling : ∀ comment ∈ trivia.dangling, comment.Readable)
    (trailing : trivia.trailing = site.trail.map Comment.ofToken) : SiteReady job site trivia where
  bound := bound
  commented := commented
  indent := Code.blank_indentAt _ (by rw [laid.indent]; exact blank)
  following := by
    rw [laid.following]
    exact comments_following lexed.bound lexed.comments
  leading := leading
  dangling := dangling
  trailing := trailing

theorem readable_leading {site : Site} {after : Text} (source : Text)
    (bound : Code.Bound site.piece.tokens)
    (chain : Token.Chain (Code.flat site.piece.tokens) after) :
    ∀ comment ∈ (site.placed source).leading, comment.Readable := by
  intro comment listed
  obtain ⟨token, isToken, rfl⟩ := List.mem_map.mp listed
  exact readable_of_piece bound chain (List.mem_cons_self) (List.mem_filter.mp isToken).1

theorem readable_shape {site : Site} {shape : ClassShape} {after : Text} (source : Text)
    (cursor : Nat) (layout : ClassLayout site.piece shape) (bound : Code.Bound site.piece.tokens)
    (chain : Token.Chain (Code.flat site.piece.tokens) after) :
    (∀ comment ∈ (shape.trivia (site.placed source) cursor).leading, comment.Readable) ∧
      ∀ comment ∈ (shape.trivia (site.placed source) cursor).dangling, comment.Readable := by
  have inside : ∀ token ∈ shape.inside ++ [shape.closing], token ∈ site.piece.tokens := by
    intro token listed
    rw [layout.tokens]
    simp only [List.mem_append, List.mem_cons, List.not_mem_nil, or_false] at listed ⊢
    tauto
  refine ⟨?_, ?_⟩
  · intro comment listed
    rcases List.mem_append.mp listed with early | header
    · exact readable_leading source bound chain comment early
    · obtain ⟨token, isToken, rfl⟩ := List.mem_map.mp header
      rcases List.mem_append.mp isToken with named | opening
      · obtain ⟨code, isCode, own⟩ := layout.exists_of_mem_comments named
        exact readable_of_piece bound chain isCode own
      · have first := (Code.sameLine_prefix _).subset opening
        cases split : shape.inside ++ [shape.closing] with
        | nil => simp at split
        | cons code others =>
            rw [split] at first inside
            exact readable_of_piece bound chain (inside code List.mem_cons_self) first
  · intro comment listed
    obtain ⟨token, isToken, rfl⟩ := List.mem_map.mp listed
    exact readable_of_piece bound chain (inside shape.closing (by simp))
      (List.mem_filter.mp isToken).1

/-- The tokens of the body of a class. -/
theorem Lexed.members {site : Site} {shape : ClassShape} {members : Outline} {after : Text}
    (layout : ClassLayout site.piece shape) (bound : Code.Bound site.piece.tokens)
    (chain : Token.Chain (Code.flat site.piece.tokens) after)
    (closed : (Code.pieces Code.declarationRule shape.inside).unclosed = none)
    (pieces : (Code.pieces Code.declarationRule shape.inside).pieces = members.pieces) :
    members.Lexed shape.closing.comments := by
  have inside : members.pieces.flatMap Piece.tokens = shape.inside := by
    rw [← pieces]
    exact Code.flatMap_pieces closed
  rw [layout.flat_tokens, Token.chain_append, Token.chain_append] at chain
  rw [layout.tokens_eq, Code.Bound.append, Code.Bound.append] at bound
  refine ⟨?_, (bound.2.2 _ List.mem_cons_self).comments,
    Token.spell [shape.closing.token] ++ after, ?_⟩
  · rw [inside]
    exact bound.2.1
  · rw [inside]
    exact chain.2.1

/-- The declarations of a parsed source can be printed after a conversion. -/
theorem Laid.ready {source : Text} {tree : SyntaxTree} {tail : List Token} {indent : Text}
    {cursor : Nat} {outline : Outline} (laid : outline.Laid source tail indent cursor)
    (formed : outline.Formed source) (stands : outline.Stands source tree)
    (lexed : outline.Lexed tail) (blank : indent.Blank) (moved : Moved tree tree.printing) :
    outline.Ready tree.printing := by
  induction outline generalizing tail indent cursor with
  | nil => trivial
  | leaf site node rest ih =>
      obtain ⟨bound, ⟨after, chain⟩, restLexed⟩ := lexed.cons rfl
      obtain ⟨siteLaid, restLaid⟩ := laid
      obtain ⟨found, bears, restStands⟩ := stands
      refine ⟨⟨_, siteLaid.ready bound restLexed blank
        (moved _ (by rw [found]; rfl) _ bears.commented)
        (readable_leading source bound chain) (fun _ listed => absurd listed List.not_mem_nil) rfl⟩,
        ih restLaid formed restStands restLexed blank⟩
  | type site shape members rest ihMembers ihRest =>
      obtain ⟨bound, ⟨after, chain⟩, restLexed⟩ := lexed.cons rfl
      obtain ⟨siteLaid, closed, pieces, memberLaid, restLaid⟩ := laid
      obtain ⟨declares, shaped, memberFormed, restFormed⟩ := formed
      obtain ⟨⟨package, found⟩, bears, memberStands, restStands⟩ := stands
      obtain ⟨layout⟩ := ClassLayout.exists_of_declares declares
      obtain ⟨leading, dangling⟩ := readable_shape source
        (members.stopFrom (Code.bodyStart shape)) layout bound chain
      have memberLexed := Lexed.members layout bound chain closed pieces
      have indented : (site.placed source).source.indent.Blank :=
        Code.blank_indentAt _ (by rw [siteLaid.indent]; exact blank)
      have unit : Code.indentUnit.Blank := SyntaxTree.blank_memberIndent
      refine ⟨⟨_, siteLaid.ready bound restLexed blank
        (moved _ (by rw [found]; rfl) _ bears.commented)
        leading dangling rfl⟩, layout.closing, ?_,
        ihMembers memberLaid memberFormed memberStands memberLexed (indented.append unit),
        ihRest restLaid restFormed restStands restLexed blank⟩
      intro record converted
      obtain ⟨replacement, chosen, rfl⟩ := Option.map_eq_some_iff.mp converted
      refine SyntaxTree.clean_of_replacement chosen (SyntaxTree.class?_of_node? found) indented
        (layout.clean chain bound) ?_
      intro member listed decl isField
      obtain ⟨memberAfter, memberChain⟩ := memberLexed.chain
      exact shaped.clean_field memberStands (Token.chain_append.mp memberChain).1 memberLexed.bound
        listed isField

/-- Declarations of a parsed source that stand one after the other from the byte `offset` on, in a
unit or in the body of a class that ends with the comments `tail`. -/
structure InBlock (source : Text) (tree : SyntaxTree) (tail : List Token) (indent : Text)
    (offset : Nat) (outline : Outline) : Prop where
  laid : ∃ cursor, outline.Laid source tail indent cursor
  formed : outline.Formed source
  plain : outline.PlainLeaves source
  stands : outline.Stands source tree
  numbered : ∃ low high, outline.Numbered low high
  tiles : outline.Tiles offset
  placed : Token.Placed offset outline.tokens
  lexed : outline.Lexed tail
  ready : outline.Ready tree.printing

/-- The first of such declarations, in front of the declarations `rest`. -/
structure SiteInBlock (source : Text) (tree : SyntaxTree) (tail : List Token) (indent : Text)
    (offset : Nat) (site : Site) (rest : Outline) : Prop where
  indented : site.indent = indent
  bound : Code.Bound site.piece.tokens
  chain : ∃ after, Token.Chain (Code.flat site.piece.tokens) after
  ready : ∃ trivia, SiteReady tree.printing site trivia
  tiles : site.Tiles offset
  placed : Token.Placed offset site.tokens
  later : ∃ high, rest.Numbered (site.id + 1) high
  rest : rest.InBlock source tree tail indent site.stop

structure LeafInBlock (source : Text) (tree : SyntaxTree) (tail : List Token) (indent : Text)
    (offset : Nat) (site : Site) (node : Node) (rest : Outline) : Prop
    extends SiteInBlock source tree tail indent offset site rest where
  found : tree.node? site.id = some node
  bears : Bears tree site.id ⟨(site.placed source).leading, (site.placed source).trailing, []⟩
  plain : Plain (site.placed source).source node

structure ClassInBlock (source : Text) (tree : SyntaxTree) (tail : List Token) (indent : Text)
    (offset : Nat) (site : Site) (shape : ClassShape) (members rest : Outline) : Prop
    extends SiteInBlock source tree tail indent offset site rest where
  layout : Nonempty (ClassLayout site.piece shape)
  found : ∃ package, tree.node? site.id =
    some (.classDecl (shape.decl package members.ids (site.placed source).source))
  bears : Bears tree site.id
    (shape.trivia (site.placed source) (members.stopFrom (Code.bodyStart shape)))
  shaped : members.Shaped source shape.name 0
  body : BodyTiles offset site shape members
  inside : members.pieces.flatMap Piece.tokens = shape.inside
  earlier : ∃ low, members.Numbered low site.id
  members : members.InBlock source tree shape.closing.comments
    ((site.placed source).source.indent ++ Code.indentUnit) (Code.bodyStart shape)

section InBlock

variable {source : Text} {tree : SyntaxTree} {tail : List Token} {indent : Text} {offset : Nat}
  {site : Site} {rest : Outline}

theorem InBlock.leaf {node : Node}
    (block : (leaf site node rest).InBlock source tree tail indent offset) :
    LeafInBlock source tree tail indent offset site node rest := by
  obtain ⟨⟨_, siteLaid, restLaid⟩, formed, ⟨plain, restPlain⟩, ⟨found, bears, restStands⟩,
    ⟨_, high, rfl, later⟩, ⟨siteTiles, restTiles⟩, placed, lexed, siteReady, restReady⟩ := block
  obtain ⟨bound, chain, restLexed⟩ := lexed.cons rfl
  obtain ⟨sitePlaced, restPlaced⟩ := Token.placed_append.mp placed
  rw [← siteTiles.stop] at restPlaced
  have behind : rest.InBlock source tree tail indent site.stop :=
    ⟨⟨_, restLaid⟩, formed, restPlain, restStands, ⟨_, _, later⟩, restTiles, restPlaced, restLexed,
      restReady⟩
  exact ⟨⟨siteLaid.indent, bound, chain, siteReady, siteTiles, sitePlaced, ⟨_, later⟩, behind⟩,
    found, bears, plain⟩

theorem InBlock.class {shape : ClassShape} {members : Outline}
    (block : (type site shape members rest).InBlock source tree tail indent offset) :
    ClassInBlock source tree tail indent offset site shape members rest := by
  obtain ⟨⟨_, siteLaid, closed, pieces, memberLaid, restLaid⟩,
    ⟨declares, shaped, memberFormed, restFormed⟩, ⟨memberPlain, restPlain⟩,
    ⟨found, bears, memberStands, restStands⟩, ⟨_, high, memberNumbered, later⟩,
    ⟨siteTiles, body, memberTiles, restTiles⟩, placed, lexed,
    siteReady, _, _, memberReady, restReady⟩ := block
  obtain ⟨bound, chain, restLexed⟩ := lexed.cons rfl
  obtain ⟨sitePlaced, restPlaced⟩ := Token.placed_append.mp placed
  rw [← siteTiles.stop] at restPlaced
  obtain ⟨layout⟩ := ClassLayout.exists_of_declares declares
  obtain ⟨_, pieceChain⟩ := chain
  have inside : members.pieces.flatMap Piece.tokens = shape.inside := by
    rw [← pieces]
    exact Code.flatMap_pieces closed
  have within : members.InBlock source tree shape.closing.comments
      ((site.placed source).source.indent ++ Code.indentUnit) (Code.bodyStart shape) :=
    ⟨⟨_, memberLaid⟩, memberFormed, memberPlain, memberStands, ⟨_, _, memberNumbered⟩, memberTiles,
      body.placed sitePlaced, Lexed.members layout bound pieceChain closed pieces, memberReady⟩
  have behind : rest.InBlock source tree tail indent site.stop :=
    ⟨⟨_, restLaid⟩, restFormed, restPlain, restStands, ⟨_, _, later⟩, restTiles, restPlaced,
      restLexed, restReady⟩
  exact ⟨⟨siteLaid.indent, bound, ⟨_, pieceChain⟩, siteReady, siteTiles, sitePlaced, ⟨_, later⟩,
    behind⟩, ⟨layout⟩, found, bears, shaped, body, inside, ⟨_, memberNumbered⟩, within⟩

end InBlock

end Outline

namespace ParsedUnit

variable {source : Text} {tree : SyntaxTree} (unit : ParsedUnit source tree)

include unit

theorem moved : Outline.Moved tree tree.printing := by
  intro id known trivia commented found present
  exact commented found
    (unit.commented.get?_of_image unit.sound (SyntaxTree.lt_of_node?_isSome known) present)

theorem lexed_outline : unit.outline.Lexed (Code.ofTokens unit.tokens).tail := by
  obtain ⟨bound, comments⟩ := Code.bound_ofTokens unit.tokens
  refine ⟨?_, comments, unit.blank, ?_⟩
  · rw [unit.code_eq]
    exact bound
  · rw [unit.code_eq, Code.flat_ofTokens]
    exact unit.chain

/-- The declarations of a source can be printed after its conversion. -/
theorem ready : unit.outline.Ready tree.printing :=
  unit.adds.laid.ready unit.adds.shaped.formed unit.adds.stands unit.lexed_outline Text.blank_nil
    unit.moved

theorem inBlock :
    unit.outline.InBlock source tree (Code.ofTokens unit.tokens).tail [] 0 where
  laid := ⟨_, unit.adds.laid⟩
  formed := unit.adds.shaped.formed
  plain := unit.plainLeaves
  stands := unit.adds.stands
  numbered := ⟨_, _, unit.numbered⟩
  tiles := unit.tiles
  placed := by
    have placed := unit.placed
    rw [unit.joined] at placed
    exact (Token.placed_append.mp placed).1
  lexed := unit.lexed_outline
  ready := unit.ready

end ParsedUnit

end JavaRecords
