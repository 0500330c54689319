import JavaRecords.Proofs.Conversion.Lone
import JavaRecords.Proofs.Conversion.Notes
import JavaRecords.Proofs.Parse.Owned
import JavaRecords.Proofs.Token.Breaks

set_option autoImplicit false

namespace JavaRecords

namespace Text

variable {exempt : List Text} {before : Bool}

theorem CrLf.lineEnding {text : Text} (breaks : CrLf [] false text) (broken : '\n' ∈ text) :
    lineEnding text = ['\r', '\n'] := by
  have occurs : ∀ left right : Text,
      occursIn ['\r', '\n'] (left ++ '\r' :: '\n' :: right) = true := by
    intro left right
    induction left with
    | nil => simp [occursIn]
    | cons c left ih => rw [List.cons_append, occursIn, ih, Bool.or_true]
  obtain ⟨left, right, rfl⟩ := List.append_of_mem broken
  have returned := breaks.feeds left right rfl
  cases last : left.getLast? with
  | none =>
      rw [List.getLast?_eq_none_iff.mp last] at returned
      cases returned
  | some c =>
      rw [returns, last] at returned
      obtain ⟨front, rfl⟩ := List.getLast?_eq_some_iff.mp last
      have isReturn : c = '\r' := by simpa using returned
      have joined : front ++ [c] ++ '\n' :: right = front ++ '\r' :: '\n' :: right := by
        rw [isReturn, List.append_assoc]
        rfl
      rw [Text.lineEnding, joined, if_pos (occurs front right)]

theorem CrLf.indentation {left right indent : Text} (breaks : CrLf [] before (left ++ right))
    (start : right.head? ≠ some '\n') (found : indentation? left = some indent) :
    CrLf exempt false indent := by
  have line : lastLine left = indent := by
    unfold indentation? at found
    dsimp only at found
    split at found
    · exact Option.some.inj found
    · cases found
  have noFeed : ∀ c ∈ indent, c ≠ '\n' := by
    intro c listed
    rw [← line, lastLine, List.mem_reverse] at listed
    simpa using List.mem_takeWhile_imp listed
  obtain ⟨front, joined⟩ : indent <:+ left := by
    have front : left.reverse.takeWhile (· ≠ '\n') <+: left.reverse := List.takeWhile_prefix _
    rw [← line, lastLine]
    simpa using List.reverse_suffix.mpr front
  refine .of_plain fun c listed => ⟨noFeed c listed, ?_⟩
  rintro rfl
  obtain ⟨first, rest, rfl⟩ := List.append_of_mem listed
  have next := breaks.stops (front ++ first) (rest ++ right) (by rw [← joined]; simp)
  simp only [List.not_mem_nil, false_and, exists_false, or_false] at next
  cases rest with
  | nil => exact start next
  | cons d rest =>
      exact noFeed d (by simp) (Option.some.inj next)

end Text

namespace Code

variable {exempt : List Text} {before : Bool}

/-- A run of tokens of a declaration, without what stands before the first. -/
theorem Broken.run_infix {code part : List CodeToken}
    (broken : Token.Broken exempt before (bare code)) (inside : part <:+: code) :
    Token.Broken exempt false (run part) := by
  obtain ⟨front, back, rfl⟩ := inside
  cases part with
  | nil => trivial
  | cons first rest =>
      obtain ⟨own, here⟩ : ∃ own, Token.Broken exempt own (first.token :: flat rest) := by
        cases front with
        | nil =>
            rw [List.nil_append, List.cons_append, bare, flat_append, ← List.cons_append,
              Token.broken_append] at broken
            exact ⟨_, broken.1⟩
        | cons other front =>
            rw [List.append_assoc, List.cons_append, bare, flat_append, List.cons_append, flat_cons,
              flat_append, ← List.cons_append, Token.broken_append, Token.broken_append,
              ← List.cons_append, Token.broken_append] at broken
            exact ⟨_, broken.2.2.1⟩
      obtain ⟨_, text, nonempty, others⟩ := here
      exact ⟨.nil, text, nonempty, others⟩

theorem Broken.text_infix {code part : List CodeToken}
    (broken : Token.Broken exempt before (bare code)) (inside : part <:+: code) :
    (text part).CrLf exempt false := by
  rw [← spell_run]
  exact (Broken.run_infix broken inside).spell

/-- The tokens of a declaration may lose what stands before the first. -/
theorem Broken.run {code : List CodeToken} {more : List Token}
    (broken : Token.Broken exempt before (bare code ++ more)) (nonempty : code ≠ []) :
    Token.Broken exempt false (run code ++ more) ∧
      Text.returns before (Token.spell (bare code ++ more)) =
        Text.returns false (Token.spell (Code.run code ++ more)) := by
  obtain ⟨first, rest, rfl⟩ := List.exists_cons_of_ne_nil nonempty
  obtain ⟨_, text, visible, others⟩ := broken
  refine ⟨⟨.nil, text, visible, others⟩, ?_⟩
  rw [Token.spell_append, spell_bare, List.append_assoc, ← Token.spell_append, Text.returns_append,
    Text.returns_of_ne_nil]
  rw [Code.run, List.cons_append, Token.spell_cons]
  exact List.append_ne_nil_of_left_ne_nil (List.append_ne_nil_of_right_ne_nil _ visible) _

theorem Broken.headerPrefix {code taken : List CodeToken} {keyword : CodeToken}
    (broken : Token.Broken exempt before (bare code)) (inside : taken ++ [keyword] <:+: code) :
    (headerPrefix taken (some keyword)).CrLf exempt false := by
  unfold Code.headerPrefix
  cases taken with
  | nil => exact .nil
  | cons first rest =>
      have whole := Broken.run_infix broken inside
      rw [run_append (List.cons_ne_nil _ _), flat_cons, flat_nil, Token.broken_append,
        Token.broken_append] at whole
      obtain ⟨front, comments, space, _⟩ := whole
      rw [if_neg (by simp), ← spell_run, Option.map_some, Option.getD_some, CodeToken.lead]
      exact front.spell.append (comments.spell.append space)

theorem indentAt_crLf {source left right otherwise : Text} (breaks : source.CrLf [] before)
    (joined : source = left ++ right) (start : right.head? ≠ some '\n')
    (inherited : otherwise.CrLf exempt false) :
    (indentAt source (Text.byteSize left) otherwise).CrLf exempt false := by
  subst joined
  unfold indentAt
  rw [Text.splitAt?_append, Option.bind_some]
  cases found : Text.indentation? left with
  | none => exact inherited
  | some indent => exact breaks.indentation start found

end Code

/-- The line breaks in a comment that the printer writes. -/
def Comment.CrLf (exempt : List Text) (comment : Comment) : Prop := comment.text.CrLf exempt false

namespace Printing

variable {job : Printing} {exempt : List Text} {id : NodeId}

/-- What is needed to write a declaration with one kind of line break: the line terminator, and the
comments of the declaration. -/
structure Breaks (job : Printing) (exempt : List Text) (id : NodeId) : Prop where
  newline : job.newline = ['\r', '\n']
  leading : ∀ comment ∈ job.tree.trivia.leading (job.image id), comment.CrLf exempt
  dangling : ∀ comment ∈ job.tree.trivia.dangling (job.image id), comment.CrLf exempt
  trailing : ∀ comment ∈ job.tree.trivia.trailing (job.image id), comment.CrLf exempt

theorem commentLines_crLf {indent newline : Text} {comments : List Comment}
    (indented : indent.CrLf exempt false) (isNewline : newline = ['\r', '\n'])
    (each : ∀ comment ∈ comments, comment.CrLf exempt) :
    (SyntaxTree.commentLines indent newline comments).CrLf exempt false :=
  .flatMap fun comment listed =>
    (indented.concat (each comment listed)).concat (isNewline ▸ .newline)

theorem commentTail_crLf {comments : List Comment}
    (each : ∀ comment ∈ comments, comment.CrLf exempt) :
    (SyntaxTree.commentTail comments).CrLf exempt false :=
  .flatMap fun comment listed =>
    have space : Text.CrLf exempt false [' '] := .of_all rfl
    space.concat (each comment listed)

theorem lines_crLf {newline : Text} {texts : List Text} (isNewline : newline = ['\r', '\n'])
    (each : ∀ text ∈ texts, text.CrLf exempt false) : (lines newline texts).CrLf exempt false := by
  have broken : newline.CrLf exempt false := isNewline ▸ .newline
  fun_induction lines newline texts with
  | case1 => exact .nil
  | case2 text => exact broken.concat (each text List.mem_cons_self)
  | case3 text texts _ ih =>
      exact ((broken.concat (each text List.mem_cons_self)).concat broken).concat
        (ih fun other listed => each other (List.mem_cons_of_mem _ listed))

theorem Breaks.member (breaks : job.Breaks exempt id) {indent text : Text} {source : Excerpt}
    (indented : indent.CrLf exempt false) (own : source.indent.CrLf exempt false)
    (written : text.CrLf exempt false) : (job.member indent id source text).CrLf exempt false := by
  have chosen : (if source.indent.isEmpty then indent else source.indent).CrLf exempt false := by
    split
    · exact indented
    · exact own
  exact (((commentLines_crLf chosen breaks.newline fun comment listed =>
    breaks.leading comment (List.mem_filter.mp listed).1).concat chosen).concat written).concat
      (commentTail_crLf breaks.trailing)

end Printing

/-- The line breaks in the texts of which the header of a record is made. -/
structure RecordDecl.CrLf (exempt : List Text) (record : RecordDecl) : Prop where
  indent : record.indent.CrLf exempt false
  headerPrefix : record.headerPrefix.CrLf exempt false
  name : record.name.CrLf exempt false
  typeParams : (record.typeParams.getD []).CrLf exempt false
  components : ∀ component ∈ record.components, component.render.CrLf exempt false
  interfaces : (record.interfaces.getD []).CrLf exempt false

theorem RecordDecl.CrLf.header {exempt : List Text} {record : RecordDecl}
    (breaks : record.CrLf exempt) : (SyntaxTree.recordHeader record).CrLf exempt false := by
  have clause : ∀ interfaces : Text, interfaces.CrLf exempt false →
      Text.CrLf exempt false (" implements ".toList ++ interfaces) :=
    fun _ given => Text.CrLf.concat (.of_all rfl) given
  have components : (Text.join [',', ' '] (record.components.map RecordComponent.render)).CrLf
      exempt false := by
    refine .separated (.of_all rfl) fun text listed => ?_
    obtain ⟨component, isComponent, rfl⟩ := List.mem_map.mp listed
    exact breaks.components component isComponent
  have keyword : Text.CrLf exempt false "record ".toList := .of_all rfl
  have opening : Text.CrLf exempt false ['('] := .of_all rfl
  have closing : Text.CrLf exempt false [')'] := .of_all rfl
  have front := ((((((breaks.indent.concat breaks.headerPrefix).concat keyword).concat
    breaks.name).concat breaks.typeParams).concat opening).concat components).concat closing
  unfold SyntaxTree.recordHeader
  dsimp only
  refine (front.concat ?_).concat (.of_all rfl)
  have given := breaks.interfaces
  cases found : record.interfaces with
  | none => exact .nil
  | some interfaces =>
      rw [found] at given
      exact clause interfaces given

namespace Printing

variable {job : Printing} {exempt : List Text} {id : NodeId}

theorem memberIndent_crLf : SyntaxTree.memberIndent.CrLf exempt false := .of_all rfl

theorem separator_crLf (exempt : List Text) (newline : job.newline = ['\r', '\n'])
    (record : RecordDecl) (before : Bool) : (job.separator record).CrLf exempt before := by
  unfold Printing.separator
  split
  · exact newline ▸ .newline
  · exact .nil

theorem Breaks.record (breaks : job.Breaks exempt id) {record : RecordDecl} {members : List Text}
    (header : record.CrLf exempt) (each : ∀ text ∈ members, text.CrLf exempt false) :
    (job.record id record members).CrLf exempt false := by
  have newline : job.newline.CrLf exempt false := breaks.newline ▸ .newline
  have closing : Text.CrLf exempt false ['}'] := .of_all rfl
  have dangling : Text.CrLf exempt false ((job.tree.trivia.dangling (job.image id)).flatMap
      fun comment => job.newline ++ (record.indent ++ SyntaxTree.memberIndent) ++ comment.text) :=
    .flatMap fun comment listed =>
      (newline.concat (header.indent.concat memberIndent_crLf)).concat
        (breaks.dangling comment listed)
  have front := ((commentLines_crLf header.indent breaks.newline breaks.leading).concat
    header.header).concat (lines_crLf breaks.newline each)
  exact ((((front.concat dangling).concat newline).concat header.indent).concat closing).concat
    (commentTail_crLf breaks.trailing)

/-- Comments after something end as their tokens do. -/
theorem returns_commentTail {tokens : List Token} (visible : ∀ token ∈ tokens, token.text ≠ [])
    (before : Bool) : Text.returns before (SyntaxTree.commentTail (tokens.map Comment.ofToken)) =
      Text.returns before (Token.spell tokens) := by
  induction tokens generalizing before with
  | nil => rfl
  | cons token rest ih =>
      have own := visible token List.mem_cons_self
      have tail := ih fun other listed => visible other (List.mem_cons_of_mem _ listed)
      have cons : SyntaxTree.commentTail ((token :: rest).map Comment.ofToken) =
          [' '] ++ token.text ++ SyntaxTree.commentTail (rest.map Comment.ofToken) := rfl
      rw [cons, Token.spell_cons, Text.returns_append, Text.returns_append, Text.returns_append,
        Text.returns_append, Text.returns_of_ne_nil own, tail,
        Text.returns_of_ne_nil own (Text.returns before token.space)]

/-- A record ends as the class in whose place it stands. -/
theorem returns_record {record : RecordDecl} {members : List Text} {trail : List Token}
    (trailing : job.tree.trivia.trailing (job.image id) = trail.map Comment.ofToken)
    (visible : ∀ token ∈ trail, token.text ≠ []) (before : Bool) :
    Text.returns before (job.record id record members) =
      Text.returns false (Token.spell trail) := by
  unfold Printing.record
  dsimp only
  rw [trailing, Text.returns_append, Text.returns_append, returns_commentTail visible]
  rfl

end Printing

namespace ClassLayout

variable {site : Site} {shape : ClassShape} {exempt : List Text} {before : Bool}

theorem record_crLf (layout : ClassLayout site.piece shape)
    (broken : Token.Broken exempt before (Code.bare site.piece.tokens)) {record : RecordDecl}
    {decl : ClassDecl} {package : Option Text} {ids : List NodeId} {source : Excerpt}
    (isClass : decl = shape.decl package ids source) (indent : record.indent.CrLf exempt false)
    (headerPrefix : record.headerPrefix = decl.headerPrefix) (name : record.name = decl.name)
    (typeParams : record.typeParams = decl.typeParams)
    (interfaces : record.interfaces = decl.interfaces)
    (components : ∀ component ∈ record.components, component.render.CrLf exempt false) :
    record.CrLf exempt where
  indent := indent
  headerPrefix := by
    have inside : layout.taken ++ [layout.keyword] <:+: site.piece.tokens := by
      rw [layout.tokens]
      exact ⟨[], layout.name :: (layout.params ++ (shape.clauses ++
        shape.opening :: (shape.inside ++ [shape.closing]))), by simp⟩
    have same : record.headerPrefix = shape.headerPrefix := by
      rw [headerPrefix, isClass]
      rfl
    rw [same, layout.headerPrefix]
    exact Code.Broken.headerPrefix broken inside
  name := by
    have same : record.name = Code.text [layout.name] := by
      rw [name, isClass]
      exact layout.nameText.trans (List.append_nil _).symm
    rw [same]
    refine Code.Broken.text_infix broken ⟨layout.taken ++ [layout.keyword], layout.params ++
      (shape.clauses ++ shape.opening :: (shape.inside ++ [shape.closing])), ?_⟩
    rw [layout.tokens]
    simp
  typeParams := by
    have same : record.typeParams = shape.typeParams := by
      rw [typeParams, isClass]
      rfl
    rw [same]
    rcases layout.typeParams with ⟨absent, _⟩ | ⟨present, _⟩
    · rw [absent]
      exact .nil
    · rw [present]
      exact Code.Broken.text_infix broken layout.params_infix
  components := components
  interfaces := by
    have same : record.interfaces = Code.headerClause? "implements" shape.clauses := by
      rw [interfaces, isClass]
      rfl
    rw [same]
    cases found : Code.headerClause? "implements" shape.clauses with
    | none => exact .nil
    | some clause =>
        obtain ⟨part, inside, rfl⟩ := Code.headerClause?_infix found
        exact Code.Broken.text_infix broken (inside.trans layout.clauses_infix)

end ClassLayout

theorem FieldLayout.render_crLf {piece : Piece} {decl : FieldDecl} {exempt : List Text}
    {before : Bool} (layout : FieldLayout piece decl)
    (broken : Token.Broken exempt before (Code.bare piece.tokens)) :
    decl.toComponent.render.CrLf exempt false := by
  have part : ∀ code ∈ layout.annotations ++ [layout.ty], (Code.text code).CrLf exempt false :=
    fun code listed => Code.Broken.text_infix broken (layout.infixes code listed)
  have space : Text.CrLf exempt false [' '] := .of_all rfl
  have name : decl.name.CrLf exempt false := by
    obtain ⟨front, back, joined⟩ := List.append_of_mem layout.isName
    have same : decl.name = Code.text [layout.name] :=
      layout.nameText.trans (List.append_nil _).symm
    rw [same]
    exact Code.Broken.text_infix broken ⟨front, back, by rw [joined]; simp⟩
  have brackets : Text.CrLf exempt false (List.replicate layout.dims ['[', ']']).flatten := by
    refine .of_plain fun c listed => ?_
    obtain ⟨pair, isPair, inside⟩ := List.mem_flatten.mp listed
    rw [(List.mem_replicate.mp isPair).2] at inside
    simp only [List.mem_cons, List.not_mem_nil, or_false] at inside
    rcases inside with rfl | rfl <;> decide
  rw [RecordComponent.render, FieldDecl.toComponent, layout.annotationTexts, layout.tyText]
  have typed := (part layout.ty (by simp)).concat brackets
  refine ((Text.CrLf.concat ?_ typed).concat space).concat name
  refine .flatMap fun written listed => ?_
  obtain ⟨code, isCode, rfl⟩ := List.mem_map.mp listed
  exact (part code (List.mem_append_left _ isCode)).concat space

namespace Outline

variable {exempt : List Text}

/-- The components that the fields of a class give. -/
theorem Shaped.render_crLf {source className : Text} {position : Nat} {outline : Outline}
    {tree : SyntaxTree} {before : Bool} (shaped : outline.Shaped source className position)
    (stands : outline.Stands source tree) (broken : Token.Broken exempt before outline.tokens)
    {id : NodeId} (listed : id ∈ outline.ids) {decl : FieldDecl}
    (found : tree.node? id = some (.field decl)) : decl.toComponent.render.CrLf exempt false := by
  induction outline generalizing position before with
  | nil => cases listed
  | leaf site node rest ih =>
      rw [tokens, Token.broken_append] at broken
      rcases List.mem_cons.mp listed with rfl | later
      · rw [stands.1, Option.some.injEq] at found
        have own := shaped.1
        rw [found] at own
        obtain ⟨layout⟩ := FieldLayout.exists_of_memberShape own
        have here := broken.1
        rw [Site.tokens, Token.broken_append, Token.broken_append] at here
        exact layout.render_crLf here.2.1
      · exact ih shaped.2 stands.2.2 broken.2 later
  | type site shape members rest _ ih =>
      rw [tokens, Token.broken_append] at broken
      rcases List.mem_cons.mp listed with rfl | later
      · obtain ⟨package, isClass⟩ := stands.1
        rw [isClass] at found
        cases found
      · exact ih shaped.2.2 stands.2.2.2 broken.2 later

/-- Declarations are written with one kind of line break: in their place, where they end as they
did, and each of them that is left one by one. -/
structure Breaks (tree : SyntaxTree) (exempt : List Text) (before : Bool) (outline : Outline) :
    Prop where
  inPlace : (outline.printed tree.printing).CrLf exempt before
  ends : Text.returns before (outline.printed tree.printing) =
    Text.returns before (Token.spell outline.tokens)
  asMembers : ∀ indent : Text, indent.CrLf exempt false → ∀ id ∈ outline.ids,
    ¬ Rebuild.Gone tree.replacements tree.rebuild id →
      ∃ text, List.lookup id (outline.memberTexts tree.printing indent) = some text ∧
        text.CrLf exempt false

/-- A first declaration with the declarations behind it. -/
theorem Breaks.cons {tree : SyntaxTree} {before : Bool} {outline rest : Outline} {site : Site}
    {own : Text} {member : Text → Text} (tokens : outline.tokens = site.tokens ++ rest.tokens)
    (ids : outline.ids = site.id :: rest.ids)
    (printed : outline.printed tree.printing = own ++ rest.printed tree.printing)
    (texts : ∀ indent, outline.memberTexts tree.printing indent =
      (site.id, member indent) :: rest.memberTexts tree.printing indent)
    (crLf : own.CrLf exempt before)
    (ends : Text.returns before own = Text.returns before (Token.spell site.tokens))
    (asMember : ¬ Rebuild.Gone tree.replacements tree.rebuild site.id → ∀ indent : Text,
      indent.CrLf exempt false → (member indent).CrLf exempt false)
    (others : rest.Breaks tree exempt (Text.returns before (Token.spell site.tokens))) :
    outline.Breaks tree exempt before where
  inPlace := by
    rw [printed]
    exact crLf.append (ends ▸ others.inPlace)
  ends := by
    rw [printed, tokens, Text.returns_append, ends, others.ends, Token.spell_append,
      Text.returns_append]
  asMembers := by
    intro indent indented id listed stays
    rw [texts]
    by_cases same : id = site.id
    · subst same
      exact ⟨_, List.lookup_cons_self, asMember stays indent indented⟩
    · rw [Rebuild.lookup_cons_of_ne _ same]
      rw [ids] at listed
      exact others.asMembers indent indented id (List.mem_of_ne_of_mem same listed) stays

/-- The comments of a class are tokens of it. -/
theorem BodyTiles.crLf_trivia {site : Site} {shape : ClassShape} {members : Outline} {offset : Nat}
    {source : Text} {before : Bool} (body : BodyTiles offset site shape members)
    (layout : ClassLayout site.piece shape) (broken : Token.Broken exempt before site.tokens) :
    let trivia := shape.trivia (site.placed source) (members.stopFrom (Code.bodyStart shape))
    ∀ comment ∈ trivia.leading ++ (trivia.dangling ++ trivia.trailing), comment.CrLf exempt := by
  have each : ∀ token ∈ site.lead ++ (Code.bare (site.front shape) ++ (Code.openingComments shape ++
      (members.dangling shape ++ site.trail))), (Comment.ofToken token).CrLf exempt :=
    fun token listed => broken.text_of_mem (by
      rw [body.split]
      simp only [List.mem_append, List.mem_cons] at listed ⊢
      tauto)
  intro trivia comment listed
  rcases List.mem_append.mp listed with leading | others
  · rcases List.mem_append.mp leading with lead | header
    · obtain ⟨token, isToken, rfl⟩ := List.mem_map.mp lead
      exact each token (List.mem_append_left _ isToken)
    · obtain ⟨token, isToken, rfl⟩ := List.mem_map.mp header
      rcases List.mem_append.mp isToken with named | opening
      · exact each token (List.mem_append_right _
          (List.mem_append_left _ (layout.comments_sublist.subset named)))
      · exact each token (List.mem_append_right _ (List.mem_append_right _
          (List.mem_append_left _ opening)))
  · rcases List.mem_append.mp others with dangling | trailing
    · obtain ⟨token, isToken, rfl⟩ := List.mem_map.mp dangling
      exact each token (by simp only [List.mem_append]; exact .inr (.inr (.inr (.inl isToken))))
    · obtain ⟨token, isToken, rfl⟩ := List.mem_map.mp trailing
      exact each token (by simp only [List.mem_append]; exact .inr (.inr (.inr (.inr isToken))))

/-- The tokens of a class: those in front of its members, the members, and those after them. -/
structure BodyBroken (exempt : List Text) (before : Bool) (site : Site) (shape : ClassShape)
    (members : Outline) : Prop where
  front : Token.Broken exempt before
    (site.lead ++ Code.bare (site.front shape) ++ Code.openingComments shape)
  inside : Token.Broken exempt (Text.returns before (Token.spell
    (site.lead ++ Code.bare (site.front shape) ++ Code.openingComments shape))) members.tokens
  back : Token.Broken exempt (Text.returns (Text.returns before (Token.spell
    (site.lead ++ Code.bare (site.front shape) ++ Code.openingComments shape)))
      (Token.spell members.tokens)) (members.dangling shape ++ shape.closing.token :: site.trail)

theorem BodyTiles.broken {site : Site} {shape : ClassShape} {members : Outline} {offset : Nat}
    {before : Bool} (body : BodyTiles offset site shape members)
    (broken : Token.Broken exempt before site.tokens) :
    BodyBroken exempt before site shape members := by
  rw [body.split, Token.broken_append, Token.broken_append] at broken
  obtain ⟨⟨front, members⟩, back⟩ := broken
  rw [Token.spell_append, Text.returns_append] at back
  exact ⟨front, members, back⟩

variable {tree : SyntaxTree} {site : Site} {shape : ClassShape} {members : Outline} {before : Bool}

/-- A class that stays, in its place. -/
theorem BodyBroken.inPlace (broken : BodyBroken exempt before site shape members)
    (inner : members.Breaks tree exempt (Text.returns before
      (Token.spell (site.lead ++ Code.bare (site.front shape) ++ Code.openingComments shape)))) :
    Text.CrLf exempt before
      (Token.spell (site.lead ++ Code.bare (site.front shape) ++ Code.openingComments shape)
        ++ members.printed tree.printing
        ++ Token.spell (members.dangling shape ++ shape.closing.token :: site.trail)) := by
  refine (broken.front.spell.append inner.inPlace).append ?_
  rw [Text.returns_append, inner.ends]
  exact broken.back.spell

/-- A class that stays ends as it did. -/
theorem BodyTiles.returns_inPlace {offset : Nat} (body : BodyTiles offset site shape members)
    (inner : members.Breaks tree exempt (Text.returns before
      (Token.spell (site.lead ++ Code.bare (site.front shape) ++ Code.openingComments shape)))) :
    Text.returns before
      (Token.spell (site.lead ++ Code.bare (site.front shape) ++ Code.openingComments shape)
        ++ members.printed tree.printing
        ++ Token.spell (members.dangling shape ++ shape.closing.token :: site.trail)) =
      Text.returns before (Token.spell site.tokens) := by
  have same := inner.ends
  simp only [body.split, Token.spell_append, Text.returns_append] at same ⊢
  rw [same]

/-- A record ends as the class in whose place it stands, and so it does after blank text. -/
theorem BodyTiles.returns_recordText {offset : Nat} (body : BodyTiles offset site shape members)
    (layout : ClassLayout site.piece shape) {job : Printing} {record : RecordDecl}
    (trailing : job.tree.trivia.trailing (job.image site.id) = site.trail.map Comment.ofToken)
    (visible : ∀ token ∈ site.trail, token.text ≠ []) (space : Text) :
    Text.returns before (space ++ recordText job site.id record members) =
      Text.returns before (Token.spell site.tokens) := by
  have closing : shape.closing.token.text = ['}'] := (ClassLayout.isPunct_text layout.closing).2
  rw [recordText, Text.returns_append, Printing.returns_record trailing visible, body.split]
  simp only [Token.spell_append, Token.spell_cons, closing, Text.returns_append]
  rfl

/-- A class that stays, as a member of a record. -/
theorem BodyBroken.asMember (broken : BodyBroken exempt before site shape members)
    (nonempty : site.front shape ≠ []) (inner : members.Breaks tree exempt (Text.returns before
      (Token.spell (site.lead ++ Code.bare (site.front shape) ++ Code.openingComments shape)))) :
    Text.CrLf exempt false
      (Token.spell (Code.run (site.front shape) ++ Code.openingComments shape)
        ++ members.printed tree.printing
        ++ Token.spell (members.dangling shape ++ [shape.closing.token])) := by
  have front := broken.front
  rw [List.append_assoc, Token.broken_append] at front
  obtain ⟨run, same⟩ := Code.Broken.run front.2 nonempty
  have ends : Text.returns before (Token.spell
      (site.lead ++ Code.bare (site.front shape) ++ Code.openingComments shape)) =
      Text.returns false (Token.spell
        (Code.run (site.front shape) ++ Code.openingComments shape)) := by
    rw [List.append_assoc, Token.spell_append, Text.returns_append, same]
  have inPlace := inner.inPlace
  have back := broken.back
  rw [List.append_cons, Token.broken_append] at back
  rw [← inner.ends, ends] at back
  rw [ends] at inPlace
  refine (run.spell.append inPlace).append ?_
  rw [Text.returns_append]
  exact back.1.spell

end Outline

namespace Site

variable {site : Site} {source front after : Text} {exempt : List Text} {before : Bool}

theorem comments_crLf (source : Text) (broken : Token.Broken exempt before site.tokens) :
    ∀ comment ∈ (site.placed source).leading ++ ([] ++ (site.placed source).trailing),
      comment.CrLf exempt := by
  have each : ∀ token ∈ site.lead ++ site.trail, (Comment.ofToken token).CrLf exempt :=
    fun token listed => broken.text_of_mem (by
      rw [Site.tokens]
      simp only [List.mem_append] at listed ⊢
      tauto)
  intro comment listed
  rcases List.mem_append.mp listed with first | last
  · obtain ⟨token, isToken, rfl⟩ := List.mem_map.mp first
    exact each token (List.mem_append_left _ isToken)
  · obtain ⟨token, isToken, rfl⟩ := List.mem_map.mp last
    exact each token (List.mem_append_right _ isToken)

/-- The indentation of a declaration. -/
theorem indent_crLf (breaks : source.CrLf [] false)
    (joined : source = front ++ (Token.spell site.tokens ++ after))
    (tiles : site.Tiles (Text.byteSize front))
    (broken : Token.Broken exempt before (Code.bare site.piece.tokens))
    (inherited : site.indent.CrLf exempt false) :
    (site.placed source).source.indent.CrLf exempt false := by
  obtain ⟨_, text, nonempty, _⟩ := broken
  have start : (site.piece.first.token.text ++ (Token.spell (Code.flat site.piece.rest)
      ++ (Token.spell site.trail ++ after))).head? ≠ some '\n' := by
    cases spelled : site.piece.first.token.text with
    | nil => exact absurd spelled nonempty
    | cons c word =>
        rintro ⟨⟩
        have := text.feeds [] word spelled
        cases this
  have split : source = (front ++ Token.spell site.lead ++ site.piece.first.token.space) ++
      (site.piece.first.token.text ++ (Token.spell (Code.flat site.piece.rest)
        ++ (Token.spell site.trail ++ after))) := by
    rw [joined, Site.tokens, Piece.tokens, Code.bare]
    simp only [Token.spell_append, Token.spell_cons, List.append_assoc]
  have offset : site.piece.first.start =
      Text.byteSize (front ++ Token.spell site.lead ++ site.piece.first.token.space) := by
    rw [tiles.start]
    simp only [Text.byteSize_append]
  change (Code.indentAt source site.piece.first.start site.indent).CrLf exempt false
  rw [offset]
  exact Code.indentAt_crLf breaks split start inherited

end Site

namespace Outline

/-- Declarations of a source with one kind of line break that stand between the texts `front` and
`after`. -/
structure BrokenBlock (source : Text) (tree : SyntaxTree) (exempt : List Text) (tail : List Token)
    (indent front after : Text) (outline : Outline) : Prop where
  block : outline.InBlock source tree tail indent (Text.byteSize front)
  joined : source = front ++ (Token.spell outline.tokens ++ after)
  broken : Token.Broken exempt (Text.returns false front) outline.tokens
  indented : indent.CrLf exempt false

/-- The first of such declarations, in front of the declarations `rest`. -/
structure BrokenSite (source : Text) (tree : SyntaxTree) (exempt : List Text) (tail : List Token)
    (indent front after : Text) (site : Site) (rest : Outline) : Prop where
  broken : Token.Broken exempt (Text.returns false front) site.tokens
  indented : (site.placed source).source.indent.CrLf exempt false
  rest : rest.BrokenBlock source tree exempt tail indent (front ++ Token.spell site.tokens) after

variable {source : Text} {tree : SyntaxTree} {exempt : List Text} {tail : List Token}
  {indent front after : Text} {outline : Outline} {site : Site} {shape : ClassShape}
  {members rest : Outline}

theorem BrokenSite.piece
    (here : BrokenSite source tree exempt tail indent front after site rest) :
    Token.Broken exempt (Text.returns (Text.returns false front) (Token.spell site.lead))
      (Code.bare site.piece.tokens) := by
  have broken := here.broken
  rw [Site.tokens, Token.broken_append, Token.broken_append] at broken
  exact broken.2.1

theorem BrokenBlock.first (breaks : source.CrLf [] false)
    (standing : outline.BrokenBlock source tree exempt tail indent front after)
    (tokens : outline.tokens = site.tokens ++ rest.tokens)
    (first : SiteInBlock source tree tail indent (Text.byteSize front) site rest) :
    BrokenSite source tree exempt tail indent front after site rest := by
  obtain ⟨_, joined, broken, indented⟩ := standing
  rw [tokens, Token.spell_append, List.append_assoc] at joined
  rw [tokens, Token.broken_append, ← Text.returns_append] at broken
  have parts := broken.1
  rw [Site.tokens, Token.broken_append, Token.broken_append] at parts
  have own := Site.indent_crLf breaks joined first.tiles parts.2.1 (first.indented ▸ indented)
  have others := first.rest
  rw [first.tiles.stop_append] at others
  exact ⟨broken.1, own, others, by rw [joined, List.append_assoc], broken.2, indented⟩

/-- The members of a class stand behind its header. -/
theorem BrokenBlock.body
    (standing :
      (type site shape members rest).BrokenBlock source tree exempt tail indent front after)
    (here : BrokenSite source tree exempt tail indent front after site rest) :
    members.BrokenBlock source tree exempt shape.closing.comments
      ((site.placed source).source.indent ++ Code.indentUnit)
      (front ++ Token.spell
        (site.lead ++ Code.bare (site.front shape) ++ Code.openingComments shape))
      (Token.spell (members.dangling shape ++ shape.closing.token :: site.trail) ++
        (Token.spell rest.tokens ++ after)) := by
  have own := standing.block.class
  refine ⟨?_, ?_, ?_, here.indented.concat Printing.memberIndent_crLf⟩
  · rw [Text.byteSize_append, ← own.body.start_eq]
    exact own.members
  · rw [standing.joined, tokens, own.body.split]
    simp only [Token.spell_append, List.append_assoc]
  · rw [Text.returns_append]
    exact (own.body.broken here.broken).inside

end Outline

namespace ParsedUnit

variable {source : Text} {tree : SyntaxTree} (unit : ParsedUnit source tree) {exempt : List Text}

include unit

theorem breaks_comments {id : NodeId} {trivia : Trivia} (known : (tree.node? id).isSome)
    (stays : ¬ Rebuild.Gone tree.replacements tree.rebuild id)
    (bears : Outline.Bears tree id trivia) (newline : tree.printing.newline = ['\r', '\n'])
    (each : ∀ comment ∈ trivia.leading ++ (trivia.dangling ++ trivia.trailing),
      comment.CrLf exempt) : tree.printing.Breaks exempt id := by
  have image := unit.bears_image known stays bears
  refine ⟨newline, ?_, ?_, ?_⟩
  · rw [image.leading]
    exact fun comment listed => each comment (List.mem_append_left _ listed)
  · rw [image.dangling]
    exact fun comment listed => each comment
      (List.mem_append_right _ (List.mem_append_left _ listed))
  · rw [image.trailing]
    exact fun comment listed => each comment
      (List.mem_append_right _ (List.mem_append_right _ listed))

section

variable {tail : List Token} {indent front after : Text} {site : Site} {shape : ClassShape}
  {members rest : Outline}

/-- The record in the place of a class is written with one kind of line break. -/
theorem recordText_crLf {offset : Nat} {later : Bool} {replacement : Replacement}
    (block : Outline.ClassInBlock source tree tail indent offset site shape members rest)
    (here : Outline.BrokenSite source tree exempt tail indent front after site rest)
    (chosen : tree.replacements.lookup site.id = some replacement)
    (inside : Token.Broken exempt later members.tokens)
    (comments : tree.printing.Breaks exempt site.id) (inner : members.Breaks tree exempt later) :
    (Outline.recordText tree.printing site.id replacement.record members).CrLf exempt false := by
  obtain ⟨package, found⟩ := block.found
  obtain ⟨layout⟩ := block.layout
  have present := SyntaxTree.class?_of_node? found
  obtain ⟨_, _, _, made⟩ := SyntaxTree.record_of_replacement chosen present
  have header : replacement.record.CrLf exempt := by
    refine layout.record_crLf here.piece rfl ?_ (by rw [made]) (by rw [made]) (by rw [made])
      (by rw [made]) fun component listed => ?_
    · rw [made]
      exact here.indented
    · obtain ⟨member, isMember, field, isField, _, rfl⟩ :=
        SyntaxTree.field_of_component chosen present listed
      exact block.shaped.render_crLf block.members.stands inside isMember isField
  have retained : replacement.record.members = replacement.partition.retained := by rw [made]
  refine comments.record header fun text listed => ?_
  obtain ⟨member, isMember, isText⟩ := List.mem_filterMap.mp listed
  have kept := isMember
  rw [retained] at kept
  obtain ⟨other, isOther, breaksOther⟩ := inner.asMembers _
    (header.indent.concat Printing.memberIndent_crLf) member
    (tree.membersKept _ site.id replacement _ chosen present member isMember)
    (unit.not_gone_of_retained chosen present kept)
  rw [isText, Option.some.injEq] at isOther
  exact isOther ▸ breaksOther

theorem breaks_leaf {node : Node} {offset : Nat}
    (newline : tree.printing.newline = ['\r', '\n'])
    (block : Outline.LeafInBlock source tree tail indent offset site node rest)
    (here : Outline.BrokenSite source tree exempt tail indent front after site rest)
    (others : rest.Breaks tree exempt
      (Text.returns (Text.returns false front) (Token.spell site.tokens))) :
    (Outline.leaf site node rest).Breaks tree exempt (Text.returns false front) := by
  refine .cons rfl rfl rfl (fun _ => rfl) here.broken.spell rfl (fun stays inner isIndent => ?_)
    others
  have comments : tree.printing.Breaks exempt site.id :=
    unit.breaks_comments (by rw [block.found]; rfl) stays block.bears newline
      (Site.comments_crLf source here.broken)
  have own := here.indented
  rw [← unit.printing_source] at own
  exact comments.member isIndent own (Code.Broken.text_infix here.piece List.infix_rfl)

theorem breaks_type (newline : tree.printing.newline = ['\r', '\n'])
    (block : Outline.ClassInBlock source tree tail indent (Text.byteSize front) site shape members
      rest)
    (here : Outline.BrokenSite source tree exempt tail indent front after site rest)
    (inner : members.Breaks tree exempt (Text.returns (Text.returns false front) (Token.spell
      (site.lead ++ Code.bare (site.front shape) ++ Code.openingComments shape))))
    (others : rest.Breaks tree exempt
      (Text.returns (Text.returns false front) (Token.spell site.tokens))) :
    (Outline.type site shape members rest).Breaks tree exempt (Text.returns false front) := by
  obtain ⟨package, found⟩ := block.found
  obtain ⟨layout⟩ := block.layout
  have stays := unit.not_gone_of_class (SyntaxTree.class?_of_node? found)
  have broken := block.body.broken here.broken
  have comments := unit.breaks_comments (by rw [found]; rfl) stays block.bears newline
    (block.body.crLf_trivia layout here.broken)
  cases converted : tree.printing.record? site.id with
  | none =>
      have own := here.indented
      rw [← unit.printing_source] at own
      refine .cons rfl rfl (by rw [Outline.printed, converted])
        (fun indent => by rw [Outline.memberTexts, converted]) (broken.inPlace inner)
        (block.body.returns_inPlace inner) (fun _ indent isIndent => ?_) others
      exact comments.member isIndent own (broken.asMember block.body.front inner)
  | some record =>
      obtain ⟨replacement, chosen, rfl⟩ := Option.map_eq_some_iff.mp converted
      have whole := unit.recordText_crLf block here chosen broken.inside comments inner
      have separator := Printing.separator_crLf exempt newline replacement.record
        (Text.returns false front)
      have trail : ∀ token ∈ site.trail, token.text ≠ [] := by
        have parts := here.broken
        rw [Site.tokens, Token.broken_append, Token.broken_append] at parts
        exact fun token listed => parts.2.2.visible listed
      exact .cons rfl rfl (by rw [Outline.printed, converted]; rfl)
        (fun indent => by rw [Outline.memberTexts, converted]; rfl) (separator.concat whole)
        (block.body.returns_recordText layout (unit.bears_class block).trailing trail _)
        (fun _ _ _ => whole) others

end

/-- Declarations of a source with one kind of line break are written with it. -/
theorem breaks {tail : List Token} {indent front after : Text} {outline : Outline}
    (crLf : source.CrLf [] false) (newline : tree.printing.newline = ['\r', '\n'])
    (standing : outline.BrokenBlock source tree exempt tail indent front after) :
    outline.Breaks tree exempt (Text.returns false front) := by
  induction outline generalizing tail indent front after with
  | nil => exact ⟨.nil, rfl, fun _ _ _ listed => absurd listed List.not_mem_nil⟩
  | leaf site node rest ih =>
      have block := standing.block.leaf
      have here := standing.first crLf rfl block.toSiteInBlock
      have others := ih here.rest
      rw [Text.returns_append] at others
      exact unit.breaks_leaf newline block here others
  | type site shape members rest ihMembers ihRest =>
      have block := standing.block.class
      have here := standing.first crLf rfl block.toSiteInBlock
      have inner := ihMembers (standing.body here)
      have others := ihRest here.rest
      rw [Text.returns_append] at inner others
      exact unit.breaks_type newline block here inner others

end ParsedUnit

def Token.lineComments (tokens : List Token) : List Text :=
  (tokens.filter fun token => token.kind == .lineComment).map Token.text

/-- If each line break of a source is a carriage return and a line feed, and there is one, then each
line feed of the converted source follows a carriage return, and each carriage return stands before
a line feed or is the last character of a line comment of the source. -/
theorem convertSource_crLf {source : Text} {conversion : SourceConversion}
    (breaks : source.CrLf [] false) (broken : '\n' ∈ source)
    (converts : convertSource source = .ok conversion) :
    ∃ tokens, lex source = .ok tokens ∧
      conversion.output.CrLf (Token.lineComments tokens) false := by
  obtain ⟨tree, unit, _, rfl⟩ := ParsedUnit.exists_of_convertSource converts
  refine ⟨unit.tokens, unit.lex_source, ?_⟩
  have newline : tree.printing.newline = ['\r', '\n'] := by
    rw [Printing.newline, unit.printing_source]
    exact breaks.lineEnding broken
  have chain := unit.chain
  rw [unit.joined, Token.chain_append] at chain
  have joined := unit.source_split
  have spelled := breaks
  rw [joined] at spelled
  have tokens : Token.Broken (Token.lineComments unit.tokens) false unit.outline.tokens := by
    refine Token.broken_of_crLf spelled chain.1 fun token listed isLine => ?_
    have inTokens : token ∈ unit.tokens := by
      rw [unit.joined]
      exact List.mem_append_left _ listed
    exact List.mem_map_of_mem (List.mem_filter.mpr ⟨inTokens, by rw [isLine]; rfl⟩)
  have standing : unit.outline.BrokenBlock source tree (Token.lineComments unit.tokens)
      (Code.ofTokens unit.tokens).tail [] [] unit.rest :=
    ⟨unit.inBlock, joined, tokens, .nil⟩
  have inner := unit.breaks breaks newline standing
  refine inner.inPlace.append ?_
  have ends := inner.ends
  rw [Text.returns_nil] at ends
  rw [Text.returns_nil, ends]
  exact spelled.back.weaken

/-- A class on lines that end with a carriage return and a line feed, after a line comment. -/
def notedPoint : Text :=
  ("//c\r\nclass P\x7b\r\nprivate final int x;\r\nP(int x)\x7bthis.x=x;\x7d\r\n" ++
    "\x7d\r\n").toList

def notedRecord : Text := "//c\r\r\nrecord P(int x) \x7b\r\n\x7d\r\n".toList

theorem loneOutput?_notedPoint : loneOutput? notedPoint = some notedRecord := by
  decide +kernel

theorem notedPoint_convertSource_crLf :
    ∃ conversion tokens, notedPoint.CrLf [] false ∧ '\n' ∈ notedPoint ∧
      convertSource notedPoint = .ok conversion ∧ lex notedPoint = .ok tokens ∧
      conversion.output.CrLf (Token.lineComments tokens) false := by
  have breaks : notedPoint.CrLf [] false := by decide +kernel
  have broken : '\n' ∈ notedPoint := by decide +kernel
  obtain ⟨reports, converts⟩ := convertSource_of_loneOutput? loneOutput?_notedPoint
  obtain ⟨tokens, lexed, output⟩ := convertSource_crLf breaks broken converts
  exact ⟨_, tokens, breaks, broken, converts, lexed, output⟩

def oneLinePoint : Text := "class P\x7bprivate final int x;P(int x)\x7bthis.x=x;\x7d\x7d".toList

/-- The record of a source without line breaks has line feeds alone, and behind a line comment the
carriage return of its line is doubled. -/
theorem convertSource_breaks_crLf :
    (∃ conversion, oneLinePoint.CrLf [] false ∧ convertSource oneLinePoint = .ok conversion ∧
      ¬ conversion.output.CrLf [] false) ∧
    ∃ conversion, notedPoint.CrLf [] false ∧ convertSource notedPoint = .ok conversion ∧
      ¬ conversion.output.CrLf [] false := by
  obtain ⟨_, oneLine⟩ := convertSource_of_loneOutput?
    (show loneOutput? oneLinePoint = some "record P(int x) \x7b\n\x7d".toList by decide +kernel)
  obtain ⟨_, noted⟩ := convertSource_of_loneOutput? loneOutput?_notedPoint
  have bare : ¬ Text.CrLf [] false "record P(int x) \x7b\n\x7d".toList := by decide +kernel
  have doubled : ¬ Text.CrLf [] false notedRecord := by decide +kernel
  exact ⟨⟨_, by decide +kernel, oneLine, bare⟩, ⟨_, by decide +kernel, noted, doubled⟩⟩

end JavaRecords
