import JavaRecords.Proofs.Conversion.Ready
import JavaRecords.Proofs.Conversion.Untouched
import JavaRecords.Proofs.Token.Between

set_option autoImplicit false

namespace JavaRecords

def Text.code (text : Text) : List Text := Token.code (lexAll text).tokens

def FieldDecl.componentCode (field : FieldDecl) : List Text :=
  field.modifiers.annotations.flatMap Text.code ++ Text.code field.ty ++ [field.name]

/-- The code of the record in the place of a class with these instance fields. -/
def ClassDecl.recordCode (decl : ClassDecl) (fields : List FieldDecl) (body : List Text) :
    List Text :=
  let clause := match decl.interfaces with
    | none => []
    | some interfaces => "implements".toList :: Text.code interfaces
  Text.code decl.headerPrefix ++ ["record".toList, decl.name]
    ++ Text.code (decl.typeParams.getD []) ++ [['(']]
    ++ List.intercalate [[',']] (fields.map FieldDecl.componentCode) ++ [[')']]
    ++ clause ++ [['{']] ++ body ++ [['}']]

def isReported (reports : List ClassReport) (id : NodeId) : Bool :=
  reports.any fun report => report.id == id && report.outcome.isConverted

namespace SyntaxTree

/-- The bytes of a declaration from its first token to its last. -/
def rangeOf (tree : SyntaxTree) (id : NodeId) : Span :=
  (((tree.node? id).bind Node.source?).map Excerpt.range).getD ⟨0, 0⟩

def instanceFieldsOf (tree : SyntaxTree) (decl : ClassDecl) : List FieldDecl :=
  decl.members.filterMap fun member =>
    match tree.node? member with
    | some (.field field) => if field.modifiers.has .static then none else some field
    | _ => none

/-- The members that the record in the place of a class keeps. -/
def retainedMembers (tree : SyntaxTree) (id : NodeId) : List NodeId :=
  match (tree.judge id).verdict with
  | .replace replacement => replacement.partition.retained
  | _ => []

/-- The code of a declaration in which the classes of `converted` are records. -/
def declCode (tree : SyntaxTree) (converted : NodeId → Bool) (tokens : List Token) (id : NodeId) :
    List Text :=
  let range := tree.rangeOf id
  match tree.class? id with
  | none => Token.code (Token.between tokens range.start range.stop)
  | some decl =>
      -- The members of a parsed class stand before it.
      let member (other : NodeId) : List Text :=
        if _before : other < id then tree.declCode converted tokens other else []
      if converted id then
        decl.recordCode (tree.instanceFieldsOf decl) ((tree.retainedMembers id).flatMap member)
      else Token.codeWith tokens range.start range.stop
        (decl.members.map fun other => (tree.rangeOf other, member other))
termination_by id
decreasing_by exact _before

/-- The code of a source in which the classes reported as converted are records. -/
def convertedCode (tree : SyntaxTree) (reports : List ClassReport) (tokens : List Token) :
    List Text :=
  Token.codeWith tokens 0 (Text.byteSize tree.source) (tree.unit.types.map fun id =>
    (tree.rangeOf id, tree.declCode (isReported reports) tokens id))

end SyntaxTree

theorem Text.map_text_words (text : Text) : text.words.map Word.text = Text.code text := by
  rw [words, Word.map_text_headless, Token.map_text_found]
  rfl

theorem RecordComponent.map_text_words (field : FieldDecl) :
    field.toComponent.words.map Word.text = field.componentCode := by
  simp only [words, FieldDecl.toComponent, FieldDecl.componentCode, List.map_append,
    List.map_flatMap, Text.map_text_words, List.map_cons, List.map_nil, Word.name]

theorem map_intersperse {α β : Type} (f : α → β) (sep : α) : (items : List α) →
    (items.intersperse sep).map f = (items.map f).intersperse (f sep)
  | [] => rfl
  | [_] => rfl
  | _ :: next :: rest => by
      simp only [List.intersperse_cons_cons, List.map_cons, map_intersperse f sep (next :: rest)]

theorem RecordDecl.map_text_headerWords (record : RecordDecl) (decl : ClassDecl)
    (fields : List FieldDecl) (name : record.name = decl.name)
    (headerPrefix : record.headerPrefix = decl.headerPrefix)
    (typeParams : record.typeParams = decl.typeParams)
    (interfaces : record.interfaces = decl.interfaces)
    (components : record.components = fields.map FieldDecl.toComponent) (body : List Text) :
    record.headerWords.map Word.text ++ (body ++ [['}']]) = decl.recordCode fields body := by
  have listed : (List.intercalate [Word.mark ','] (record.components.map RecordComponent.words)).map
      Word.text = List.intercalate [[',']] (fields.map FieldDecl.componentCode) := by
    rw [components, List.intercalate, List.map_flatten, map_intersperse, List.map_map, List.map_map]
    rw [List.intercalate]
    congr 2
    apply List.map_congr_left
    intro field _
    exact RecordComponent.map_text_words field
  have clause : record.clauseWords.map Word.text = match decl.interfaces with
      | none => []
      | some interfaces => "implements".toList :: Text.code interfaces := by
    rw [clauseWords, interfaces]
    cases decl.interfaces with
    | none => rfl
    | some interfaces => simp [Word.name, Text.map_text_words]
  rw [headerWords, ClassDecl.recordCode]
  simp only [List.map_append, List.map_cons, List.map_nil, Text.map_text_words, listed,
    clause, name,
    headerPrefix, typeParams, Word.text_name, Word.text_mark, List.append_assoc, List.cons_append,
    List.nil_append]

namespace SyntaxTree

theorem instanceFields_eq {tree : SyntaxTree} {id : NodeId} {decl : ClassDecl}
    {members : List Member} (ids : members.map Member.id = decl.members)
    (nodes : ∀ member ∈ members, tree.node? member.id = some member.node) :
    (ClassView.instanceFields ⟨id, decl, members⟩).map Prod.snd = tree.instanceFieldsOf decl := by
  unfold instanceFieldsOf ClassView.instanceFields ClassView.fields
  rw [← ids]
  clear ids
  induction members with
  | nil => rfl
  | cons member rest ih =>
      have later := ih fun other listed => nodes other (List.mem_cons_of_mem _ listed)
      have own := nodes member List.mem_cons_self
      rw [List.map_cons, List.filterMap_cons, List.filterMap_cons, own]
      cases member.node with
      | field decl =>
          dsimp only
          cases fixed : decl.modifiers.has .static with
          | true => simpa [fixed] using later
          | false => simpa [fixed] using later
      | _ => exact later

section

variable {tree : SyntaxTree} {converted : NodeId → Bool} {tokens : List Token} {id : NodeId}

theorem declCode_of_not_class (absent : tree.class? id = none) :
    tree.declCode converted tokens id =
      Token.code (Token.between tokens (tree.rangeOf id).start (tree.rangeOf id).stop) := by
  rw [declCode]
  simp only [absent]

theorem declCode_of_kept {decl : ClassDecl} (present : tree.class? id = some decl)
    (stays : converted id = false) (before : ∀ member ∈ decl.members, member < id) :
    tree.declCode converted tokens id =
      Token.codeWith tokens (tree.rangeOf id).start (tree.rangeOf id).stop
        (decl.members.map fun member =>
          (tree.rangeOf member, tree.declCode converted tokens member)) := by
  rw [declCode]
  simp only [present, stays, Bool.false_eq_true, ↓reduceIte]
  congr 1
  apply List.map_congr_left
  intro member listed
  rw [dif_pos (before member listed)]

theorem declCode_of_converted {decl : ClassDecl} (present : tree.class? id = some decl)
    (isConverted : converted id = true) (before : ∀ member ∈ tree.retainedMembers id, member < id) :
    tree.declCode converted tokens id =
      decl.recordCode (tree.instanceFieldsOf decl)
        ((tree.retainedMembers id).flatMap (tree.declCode converted tokens)) := by
  rw [declCode]
  simp only [present, isConverted, ↓reduceIte]
  congr 1
  apply List.flatMap_congr
  intro member listed
  rw [dif_pos (before member listed)]

end

theorem rangeOf_eq {tree : SyntaxTree} {id : NodeId} {node : Node} {source : Excerpt}
    (found : tree.node? id = some node) (same : node.source? = some source) :
    tree.rangeOf id = source.range := by
  rw [rangeOf, found, Option.bind_some, same]
  rfl

end SyntaxTree

theorem Site.Tiles.stop_eq {offset : Nat} {site : Site} (tiles : site.Tiles offset) :
    site.stop = site.piece.last.stop + Text.byteSize (Token.spell site.trail) := by
  rw [tiles.stop, tiles.last, Site.tokens]
  simp only [Token.spell_append, Text.byteSize_append]
  omega

theorem Code.code_bare {code : List CodeToken} (bound : Bound code) :
    Token.code (bare code) = (words code).map Word.text := by
  have none : ∀ comment ∈ ([] : List Token), comment.isComment = true := by simp
  have fits := fits_bare none bound none
  rw [List.nil_append, List.append_nil] at fits
  rw [← Token.map_text_found [], Word.map_text_of_fits fits]

namespace Outline

variable {tree : SyntaxTree} {converted : NodeId → Bool} {tokens : List Token}

/-- The code of each declaration is what its words say. -/
def EntriesCoded (tree : SyntaxTree) (converted : NodeId → Bool) (tokens : List Token)
    (outline : Outline) : Prop :=
  ∀ id ∈ outline.ids, ∃ part, List.lookup id (outline.entries tree.printing) = some part ∧
    part.map Word.text = tree.declCode converted tokens id

theorem EntriesCoded.cons {outline rest : Outline} {own : NodeId} {part : List Word}
    (ids : outline.ids = own :: rest.ids)
    (entries : outline.entries tree.printing = (own, part) :: rest.entries tree.printing)
    (here : part.map Word.text = tree.declCode converted tokens own)
    (others : rest.EntriesCoded tree converted tokens) :
    outline.EntriesCoded tree converted tokens := by
  intro id listed
  rw [entries]
  by_cases same : id = own
  · subst same
    exact ⟨part, List.lookup_cons_self, here⟩
  · rw [ids] at listed
    obtain ⟨found, inEntries, texts⟩ := others id (List.mem_of_ne_of_mem same listed)
    refine ⟨found, ?_, texts⟩
    rw [List.lookup_cons, beq_false_of_ne same]
    exact inEntries

theorem EntriesCoded.kept {members : Outline} (coded : members.EntriesCoded tree converted tokens)
    {ids : List NodeId} (inside : ∀ id ∈ ids, id ∈ members.ids) :
    (ids.filterMap fun id => List.lookup id (members.entries tree.printing)).flatten.map Word.text =
      ids.flatMap (tree.declCode converted tokens) := by
  induction ids with
  | nil => rfl
  | cons id ids ih =>
      obtain ⟨part, inEntries, texts⟩ := coded id (inside id List.mem_cons_self)
      have later := ih fun other listed => inside other (List.mem_cons_of_mem _ listed)
      simp only [List.filterMap_cons, inEntries, List.flatten_cons, List.map_append, texts,
        List.flatMap_cons, later]

/-- The code of the declarations between two offsets is what their words say, with the tokens
before and after them. -/
structure Coded (tree : SyntaxTree) (converted : NodeId → Bool) (tokens : List Token)
    (start stop : Nat) (gap last : List Token) (outline : Outline) : Prop where
  entries : outline.EntriesCoded tree converted tokens
  spliced : ∀ keep, Token.codeWith tokens start stop ((outline.listed keep).map fun id =>
      (tree.rangeOf id, tree.declCode converted tokens id)) =
    Token.code gap ++ ((outline.words tree.printing).map Word.text ++ Token.code last)

/-- The tokens of a declaration between those before and after it. -/
theorem located_site {site : Site} {gap more : List Token} {offset start stop : Nat}
    (located : Token.Located tokens offset start stop (gap ++ (site.tokens ++ more)))
    (tiles : site.Tiles (offset + Text.byteSize (Token.spell gap))) :
    Token.between tokens start site.piece.first.start = gap ++ site.lead ∧
      Token.Located tokens (offset + Text.byteSize (Token.spell (gap ++ site.lead)))
        site.piece.first.start site.piece.last.stop (Code.bare site.piece.tokens) ∧
      Token.Located tokens site.piece.last.stop site.piece.last.stop stop (site.trail ++ more) := by
  have bare : Code.bare site.piece.tokens =
      site.piece.first.token :: Code.flat site.piece.rest := rfl
  have split : gap ++ (site.tokens ++ more) = gap ++ site.lead ++
      (site.piece.first.token :: Code.flat site.piece.rest ++ (site.trail ++ more)) := by
    simp only [Site.tokens, bare, List.append_assoc]
  have next : offset + Text.byteSize (Token.spell (gap ++ site.lead)) +
      Text.byteSize (Token.spell (Code.bare site.piece.tokens)) = site.piece.last.stop := by
    rw [tiles.last, Token.spell_append, Text.byteSize_append]
    omega
  rw [split] at located
  obtain ⟨before, own, after⟩ := located.cut
  rw [← bare, next] at own after
  exact ⟨before, own, after⟩

theorem codeWith_cons {site : Site} {trivia : Trivia} {gap : List Token} {start stop : Nat}
    {parts : List (Span × List Text)} {texts others : List Text}
    (ready : SiteReady tree.printing site trivia)
    (range : tree.rangeOf site.id = ⟨site.piece.first.start, site.piece.last.stop⟩)
    (before : Token.between tokens start site.piece.first.start = gap ++ site.lead)
    (after : Token.codeWith tokens site.piece.last.stop stop parts =
      Token.code site.trail ++ others) :
    Token.codeWith tokens start stop ((tree.rangeOf site.id, texts) :: parts) =
      Token.code gap ++ (texts ++ others) := by
  rw [Token.codeWith, range]
  dsimp only
  rw [before, after, Token.code_append, Token.code_of_comments ready.lead,
    Token.code_of_comments ready.trail, List.append_nil, List.nil_append, List.append_assoc]

theorem code_site {site : Site} {trivia : Trivia} (ready : SiteReady tree.printing site trivia) :
    Token.code site.tokens = (Code.words site.piece.tokens).map Word.text := by
  rw [Site.tokens, Token.code_append, Token.code_append, Token.code_of_comments ready.lead,
    Token.code_of_comments ready.trail, Code.code_bare ready.bound, List.nil_append,
    List.append_nil]

theorem words_leaf (job : Printing) (site : Site) (node : Node) (rest : Outline) :
    Outline.words job (.leaf site node rest) = Code.words site.piece.tokens ++ rest.words job := rfl

theorem words_type (job : Printing) (site : Site) (shape : ClassShape) (members rest : Outline) :
    Outline.words job (.type site shape members rest) =
      classWords job site shape (members.entries job) ++ rest.words job := rfl

theorem Coded.leaf {source : Text} {site : Site} {node : Node} {rest : Outline} {trivia : Trivia}
    {gap last : List Token} {offset start stop : Nat}
    (located : Token.Located tokens offset start stop
      (gap ++ (site.tokens ++ (rest.tokens ++ last))))
    (tiles : site.Tiles (offset + Text.byteSize (Token.spell gap)))
    (found : tree.node? site.id = some node) (plain : Plain (site.placed source).source node)
    (ready : SiteReady tree.printing site trivia)
    (after : rest.Coded tree converted tokens site.piece.last.stop stop site.trail last)
    (skipped : rest.Coded tree converted tokens start stop (gap ++ site.tokens) last) :
    Coded tree converted tokens start stop gap last (.leaf site node rest) := by
  obtain ⟨before, own, _⟩ := located_site located tiles
  have isSource : node.source? = some (site.placed source).source := plain.source?_eq
  have range : tree.rangeOf site.id = ⟨site.piece.first.start, site.piece.last.stop⟩ :=
    SyntaxTree.rangeOf_eq found isSource
  have here : tree.declCode converted tokens site.id =
      (Code.words site.piece.tokens).map Word.text := by
    rw [SyntaxTree.declCode_of_not_class (plain.class?_eq_none found), range]
    dsimp only
    rw [own.tokens, Code.code_bare ready.bound]
  refine ⟨.cons rfl rfl here.symm after.entries, ?_⟩
  intro keep
  by_cases kept : keep node = true
  · rw [listed, if_pos kept, List.singleton_append, List.map_cons,
      codeWith_cons ready range before (after.spliced keep), here, words_leaf, List.map_append,
      List.append_assoc]
  · rw [listed, if_neg kept, List.nil_append, skipped.spliced keep, Token.code_append,
      code_site ready, words_leaf, List.map_append, List.append_assoc, List.append_assoc]

theorem code_of_kept {site : Site} {shape : ClassShape} {members : Outline} {trivia : Trivia}
    {offset : Nat} {decl : ClassDecl} (body : BodyTiles offset site shape members)
    (present : tree.class? site.id = some decl) (ids : decl.members = members.ids)
    (before : ∀ member ∈ members.ids, member < site.id)
    (range : tree.rangeOf site.id = ⟨site.piece.first.start, site.piece.last.stop⟩)
    (ready : SiteReady tree.printing site trivia) (isBrace : shape.closing.isPunct '}' = true)
    (stays : tree.printing.record? site.id = none) (unreported : converted site.id = false)
    (inner : members.Coded tree converted tokens site.piece.first.start site.piece.last.stop
      (Code.bare (site.front shape) ++ Code.openingComments shape)
      (members.dangling shape ++ [shape.closing.token])) :
    (classWords tree.printing site shape (members.entries tree.printing)).map Word.text =
      tree.declCode converted tokens site.id := by
  obtain ⟨boundFront, opening, dangling⟩ := body.bound ready.bound
  have closing : Token.code [shape.closing.token] = [['}']] := by
    obtain ⟨kind, text⟩ := ClassLayout.isPunct_text isBrace
    simp [Token.code, Token.isComment, kind, TokenKind.isComment,
      show shape.closing.token.text = _ from text]
  rw [SyntaxTree.declCode_of_kept present unreported (by rw [ids]; exact before), ids, range,
    ← listed_true members, inner.spliced, Token.code_append, Token.code_append,
    Token.code_of_comments opening, Token.code_of_comments dangling, closing,
    Code.code_bare boundFront]
  simp [classWords, stays, Outline.words]

theorem code_of_converted {site : Site} {shape : ClassShape} {members : Outline}
    {decl : ClassDecl} {replacement : Replacement}
    (present : tree.class? site.id = some decl) (before : ∀ member ∈ members.ids, member < site.id)
    (chosen : tree.replacements.lookup site.id = some replacement)
    (kept : ∀ member ∈ replacement.record.members, member ∈ members.ids)
    (reported : converted site.id = true) (inner : members.EntriesCoded tree converted tokens) :
    (classWords tree.printing site shape (members.entries tree.printing)).map Word.text =
      tree.declCode converted tokens site.id := by
  have isRecord : tree.printing.record? site.id = some replacement.record := by
    simp [SyntaxTree.printing, chosen]
  have retained : tree.retainedMembers site.id = replacement.partition.retained := by
    rw [SyntaxTree.retainedMembers, ((tree.lookup_replacements _ _).mp chosen).2]
  obtain ⟨resolved, ids, nodes, made⟩ := SyntaxTree.record_of_replacement chosen present
  have isMembers : replacement.record.members = tree.retainedMembers site.id := by
    rw [retained, made]
  rw [isMembers] at kept
  have components : replacement.record.components =
      (tree.instanceFieldsOf decl).map FieldDecl.toComponent := by
    rw [← SyntaxTree.instanceFields_eq ids nodes, made, List.map_map]
    rfl
  have header := RecordDecl.map_text_headerWords replacement.record decl
    (tree.instanceFieldsOf decl)
    (by rw [made]) (by rw [made]) (by rw [made]) (by rw [made]) components
    ((tree.retainedMembers site.id).flatMap (tree.declCode converted tokens))
  rw [SyntaxTree.declCode_of_converted present reported
    (fun member listed => before member (kept member listed)), ← header, ← inner.kept kept]
  simp [classWords, isRecord, isMembers]

theorem Coded.type {source : Text} {site : Site} {shape : ClassShape} {members rest : Outline}
    {tail gap last : List Token} {indent : Text} {offset start stop : Nat}
    (own : ClassInBlock source tree tail indent (offset + Text.byteSize (Token.spell gap)) site
      shape members rest)
    (rebuilt : Outline.Rebuilt tree.printing (.type site shape members rest))
    (agrees : ∀ id, converted id = (tree.replacements.lookup id).isSome)
    (before : Token.between tokens start site.piece.first.start = gap ++ site.lead)
    (inner : members.Coded tree converted tokens site.piece.first.start site.piece.last.stop
      (Code.bare (site.front shape) ++ Code.openingComments shape)
      (members.dangling shape ++ [shape.closing.token]))
    (others : rest.Coded tree converted tokens site.piece.last.stop stop site.trail last) :
    Coded tree converted tokens start stop gap last (.type site shape members rest) := by
  obtain ⟨package, found⟩ := own.found
  obtain ⟨layout⟩ := own.layout
  obtain ⟨_, ready⟩ := own.ready
  obtain ⟨_, numbered⟩ := own.earlier
  obtain ⟨place, _, _⟩ := rebuilt
  have range : tree.rangeOf site.id = ⟨site.piece.first.start, site.piece.last.stop⟩ :=
    SyntaxTree.rangeOf_eq found rfl
  have present := SyntaxTree.class?_of_node? found
  have earlier : ∀ member ∈ members.ids, member < site.id := fun member listed =>
    (numbered.mem_ids listed).2
  have here : (classWords tree.printing site shape (members.entries tree.printing)).map
      Word.text = tree.declCode converted tokens site.id := by
    cases chosen : tree.replacements.lookup site.id with
    | none =>
        refine code_of_kept own.body present rfl earlier range ready layout.closing ?_ ?_ inner
        · simp [SyntaxTree.printing, chosen]
        · rw [agrees, chosen]
          rfl
    | some replacement =>
        have isRecord : tree.printing.record? site.id = some replacement.record := by
          simp [SyntaxTree.printing, chosen]
        rw [isRecord] at place
        exact code_of_converted present earlier chosen place.2.2 (by rw [agrees, chosen]; rfl)
          inner.entries
  refine ⟨.cons rfl rfl here others.entries, fun keep => ?_⟩
  rw [listed, List.map_cons, codeWith_cons ready range before (others.spliced keep), ← here,
    words_type, List.map_append, List.append_assoc]

/-- The code of the declarations between two offsets. -/
theorem coded {source : Text} {outline : Outline} {tail gap last : List Token} {indent : Text}
    {offset start stop : Nat}
    (located : Token.Located tokens offset start stop (gap ++ (outline.tokens ++ last)))
    (block : outline.InBlock source tree tail indent (offset + Text.byteSize (Token.spell gap)))
    (rebuilt : outline.Rebuilt tree.printing)
    (agrees : ∀ id, converted id = (tree.replacements.lookup id).isSome) :
    outline.Coded tree converted tokens start stop gap last := by
  induction outline generalizing tail indent offset start stop gap last with
  | nil =>
      refine ⟨fun id listed => absurd listed List.not_mem_nil, fun keep => ?_⟩
      rw [listed, List.map_nil, Token.codeWith, located.tokens, Outline.tokens, Token.code_append]
      rfl
  | leaf site node rest ih =>
      have own := block.leaf
      have others := own.rest
      obtain ⟨_, ready⟩ := own.ready
      obtain ⟨_, _, restRebuilt⟩ := rebuilt
      rw [Outline.tokens, List.append_assoc] at located
      refine .leaf located own.tiles own.found own.plain ready ?_ ?_
      · obtain ⟨_, _, after⟩ := located_site located own.tiles
        rw [own.tiles.stop_eq] at others
        exact ih after others restRebuilt
      · rw [← List.append_assoc] at located
        rw [own.tiles.stop, Nat.add_assoc, ← Text.byteSize_append, ← Token.spell_append] at others
        exact ih located others restRebuilt
  | type site shape members rest ihMembers ihRest =>
      have own := block.class
      have inside := own.members
      have behind := own.rest
      rw [Outline.tokens, List.append_assoc] at located
      obtain ⟨before, located, after⟩ := located_site located own.tiles
      rw [own.tiles.stop_eq] at behind
      rw [own.body.bare_eq] at located
      have start : Code.bodyStart shape = offset + Text.byteSize (Token.spell (gap ++ site.lead)) +
          Text.byteSize (Token.spell (Code.bare (site.front shape)
            ++ Code.openingComments shape)) := by
        rw [own.body.start_eq]
        simp only [Token.spell_append, Text.byteSize_append]
        omega
      rw [start] at inside
      exact .type own rebuilt agrees before (ihMembers located inside rebuilt.2.1)
        (ihRest after behind rebuilt.2.2)

end Outline

theorem isReported_eq (tree : SyntaxTree) (id : NodeId) :
    isReported tree.convertUnit.reports id = (tree.replacements.lookup id).isSome := by
  have converts := tree.converts_iff id (tree.rebuild.image id)
  rw [Bool.eq_iff_iff, isReported, List.any_eq_true]
  constructor
  · rintro ⟨report, listed, isConverted⟩
    simp only [Bool.and_eq_true, beq_iff_eq] at isConverted
    obtain ⟨same, isOutcome⟩ := isConverted
    cases outcome : report.outcome with
    | unchanged reason => rw [outcome] at isOutcome; cases isOutcome
    | failed violation => rw [outcome] at isOutcome; cases isOutcome
    | converted record components elided retained =>
        exact ((tree.converts_iff id record).mp
          ⟨report, listed, same, components, elided, retained, outcome⟩).1
  · intro replaced
    obtain ⟨report, listed, same, components, elided, retained, outcome⟩ :=
      converts.mpr ⟨replaced, rfl⟩
    refine ⟨report, listed, ?_⟩
    simp [same, outcome, ClassOutcome.isConverted]

namespace ParsedUnit

variable {source : Text} {tree : SyntaxTree} (unit : ParsedUnit source tree)

include unit

theorem comments_rest : ∀ comment ∈ Code.commentsFrom (unit.outline.stopFrom 0)
    (Code.ofTokens unit.tokens).tail, comment.isComment = true :=
  fun comment listed => (Code.bound_ofTokens unit.tokens).2 comment (List.mem_filter.mp listed).1

/-- The source after the declarations has no words. -/
theorem tells_rest : Tells unit.rest [] (Token.notes (Code.commentsFrom (unit.outline.stopFrom 0)
    (Code.ofTokens unit.tokens).tail)) := by
  have chain := unit.chain
  rw [unit.joined, Token.chain_append] at chain
  refine ⟨_, unit.blank, rfl, chain.2, unit.isBlank, ?_, rfl⟩
  rw [Token.found_of_all unit.comments_rest]
  exact .nil

/-- A converted source has the words and notes of its declarations, and the notes of the comments
after them. -/
theorem tells_convertUnit :
    Tells (unit.outline.printed tree.printing ++ unit.rest) (unit.outline.words tree.printing)
      (unit.outline.notes tree.printing ++ Token.notes (Code.commentsFrom (unit.outline.stopFrom 0)
        (Code.ofTokens unit.tokens).tail)) := by
  have chain := unit.chain
  rw [unit.joined, Token.chain_append] at chain
  have told := Outline.told unit.tiles unit.rebuilt unit.ready chain.1
  have whole := told.inPlace unit.rest [] _ (.refl _) Word.headless_nil unit.tells_rest
  rwa [List.append_nil] at whole

theorem spells_convertUnit :
    Spells (unit.outline.printed tree.printing ++ unit.rest) (unit.outline.words tree.printing) :=
  unit.tells_convertUnit.spells

theorem located : Token.Located unit.tokens 0 0 (Text.byteSize source) unit.tokens := by
  have visible := unit.chain.visible
  have size : Text.byteSize (Token.spell unit.tokens) ≤ Text.byteSize source := by
    have spelled := congrArg Text.byteSize unit.spelled
    rw [Text.byteSize_append] at spelled
    omega
  refine ⟨List.filter_eq_self.mpr ?_, unit.placed, visible, by omega⟩
  intro token listed
  have bounds := unit.placed.bounds visible listed
  simp only [Bool.and_eq_true, decide_eq_true_eq]
  omega

/-- The words of a converted source are the code that it should have. -/
theorem map_text_words : (unit.outline.words tree.printing).map Word.text =
    tree.convertedCode tree.convertUnit.reports unit.tokens := by
  have located : Token.Located unit.tokens 0 0 (Text.byteSize source)
      ([] ++ (unit.outline.tokens ++ Code.commentsFrom (unit.outline.stopFrom 0)
        (Code.ofTokens unit.tokens).tail)) := by
    rw [List.nil_append, ← unit.joined]
    exact unit.located
  have coded := Outline.coded located unit.inBlock unit.rebuilt (isReported_eq tree)
  have spliced := coded.spliced Node.isMember
  rw [Outline.listed_isMember, ← unit.types, Token.code_of_comments unit.comments_rest,
    List.append_nil] at spliced
  rw [SyntaxTree.convertedCode, unit.source_eq, spliced]
  rfl

/-- A source without a converted class stays as it is. -/
theorem print_of_unchanged (unchanged : tree.convertUnit.isChanged = false) :
    unit.outline.printed tree.printing ++ unit.rest = source := by
  have none : unit.outline.patches tree.printing = [] := by
    rw [List.eq_nil_iff_forall_not_mem]
    intro patch listed
    obtain ⟨⟨report, isReport, _, components, elided, retained, outcome⟩, _⟩ :=
      (unit.mem_patches_iff patch.id patch.record).mp ⟨patch, listed, rfl, rfl⟩
    have counted : 0 < tree.convertUnit.converted := by
      refine List.length_pos_of_mem (List.mem_filter.mpr ⟨isReport, ?_⟩)
      rw [outcome]
      rfl
    simp only [UnitConversion.isChanged, decide_eq_false_iff_not] at unchanged
    omega
  have written := unit.overwrite?_eq
  have whole := Text.slice?_append [] source []
  rw [List.nil_append, List.append_nil] at whole
  rw [none, Text.overwrite?] at written
  exact Option.some.inj (written.symm.trans (by simpa using whole))

theorem convertedText_eq :
    (if tree.convertUnit.isChanged then tree.convertUnit.tree.print else source) =
      unit.outline.printed tree.printing ++ unit.rest := by
  cases changed : tree.convertUnit.isChanged with
  | false => exact (unit.print_of_unchanged changed).symm
  | true =>
      have printed := SyntaxTree.print?_of_loggedPrint? unit.loggedPrint?_convertUnit
      simp [SyntaxTree.print, printed]

theorem convertSource_eq (parsed : parse source = .ok tree) : convertSource source =
    .ok ⟨unit.outline.printed tree.printing ++ unit.rest, tree.convertUnit.reports⟩ :=
  convertSource_eq_ok_iff.mpr ⟨tree, parsed, by rw [unit.convertedText_eq]⟩

theorem lex_converted : lex (unit.outline.printed tree.printing ++ unit.rest) =
    .ok (lexAll (unit.outline.printed tree.printing ++ unit.rest)).tokens := by
  obtain ⟨closed, _⟩ := unit.spells_convertUnit.lexFrom_eq 0
  rw [lex]
  simp only [lexAll, closed]

omit unit in
theorem exists_of_convertSource {conversion : SourceConversion}
    (converts : convertSource source = .ok conversion) :
    ∃ (tree : SyntaxTree) (unit : ParsedUnit source tree), parse source = .ok tree ∧
      conversion =
        ⟨unit.outline.printed tree.printing ++ unit.rest, tree.convertUnit.reports⟩ := by
  obtain ⟨tree, parsed, rfl⟩ := convertSource_eq_ok_iff.mp converts
  obtain ⟨unit⟩ := ParsedUnit.exists_of_parse parsed
  exact ⟨tree, unit, parsed, by rw [unit.convertedText_eq]⟩

end ParsedUnit

/-- A converted source can be read, and its code is that of the source with the code of a record in
the place of each class that is reported as converted. -/
theorem lex_convertSource {source : Text} {conversion : SourceConversion}
    (converts : convertSource source = .ok conversion) :
    ∃ tree tokens output, parse source = .ok tree ∧ lex source = .ok tokens ∧
      lex conversion.output = .ok output ∧
      Token.code output = tree.convertedCode conversion.reports tokens := by
  obtain ⟨tree, unit, parsed, rfl⟩ := ParsedUnit.exists_of_convertSource converts
  obtain ⟨_, fits⟩ := unit.spells_convertUnit.lexFrom_eq 0
  refine ⟨tree, unit.tokens, _, parsed, unit.lex_source, unit.lex_converted, ?_⟩
  rw [← unit.map_text_words, ← Word.map_text_of_fits fits, Token.map_text_found]
  rfl

/-- A class that stays, with a member that becomes a record and comments around it. -/
def nestedPoint : Text :=
  "class A{/*a*/static class P{private final int x;/*b*/P(int x){this.x=x;}/*c*/}int y;}".toList

theorem nestedPoint_lex_convertSource :
    ∃ tree conversion tokens output, parse nestedPoint = .ok tree ∧ tree.isEligible 2 = true ∧
      convertSource nestedPoint = .ok conversion ∧ lex nestedPoint = .ok tokens ∧
      lex conversion.output = .ok output ∧
      Token.code output = tree.convertedCode conversion.reports tokens := by
  obtain ⟨tree, parsed, eligible⟩ := exists_ok_of_any
    (show (parse nestedPoint).toOption.any (fun tree => tree.isEligible 2) = true by
      decide +kernel)
  have converts := convertSource_eq_ok_iff.mpr ⟨tree, parsed, rfl⟩
  obtain ⟨_, tokens, output, again, lexed, read, code⟩ := lex_convertSource converts
  cases parsed.symm.trans again
  exact ⟨tree, _, tokens, output, parsed, eligible, converts, lexed, read, code⟩

end JavaRecords
