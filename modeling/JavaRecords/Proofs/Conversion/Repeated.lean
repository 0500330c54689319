import JavaRecords.Proofs.Conversion.Lone
import JavaRecords.Proofs.Conversion.Notes
import JavaRecords.Proofs.Parse.Owned

set_option autoImplicit false

namespace JavaRecords

/-- The comments in the type parameters and in the implemented interfaces of a class. -/
def ClassDecl.clauseNotes (decl : ClassDecl) : List Text :=
  (decl.typeParams.getD []).notes ++ (decl.interfaces.map Text.notes).getD []

namespace SyntaxTree

/-- The comments in the type parameters and in the implemented interfaces of a node, if it is a
class. -/
def clauseNotes (tree : SyntaxTree) (id : NodeId) : List Text :=
  ((tree.class? id).map ClassDecl.clauseNotes).getD []

/-- The comments in the type parameters and in the implemented interfaces of the classes that are
reported as converted. -/
def repeatedNotes (tree : SyntaxTree) (reports : List ClassReport) : List Text :=
  (reports.filter fun report => report.outcome.isConverted).flatMap fun report =>
    tree.clauseNotes report.id

end SyntaxTree

/-- What is given for some entries of a list and what is noted for others is contained in what the
entries allow. -/
theorem given_noted_subperm {α β : Type} {entries : List (NodeId × List β)}
    {given : NodeId → Option α} {expand : α → List β} {taken : NodeId → Bool}
    {noted : NodeId → Option (List β)}
    (own : ∀ entry ∈ entries, ∀ item, given entry.1 = some item →
      taken entry.1 = false ∧ (expand item).Subperm entry.2)
    (kept : ∀ entry ∈ entries, taken entry.1 = true →
      ∃ notes, noted entry.1 = some notes ∧ notes.Subperm entry.2) :
    (((entries.map Prod.fst).filterMap given).flatMap expand ++
      (((entries.map Prod.fst).filter taken).filterMap noted).flatten).Subperm
        (entries.flatMap Prod.snd) := by
  induction entries with
  | nil => exact List.nil_subperm
  | cons entry entries ih =>
      have others := ih (fun other listed => own other (List.mem_cons_of_mem _ listed))
        fun other listed => kept other (List.mem_cons_of_mem _ listed)
      rw [List.map_cons, List.filterMap_cons, List.filter_cons, List.flatMap_cons]
      cases found : given entry.1 with
      | some item =>
          obtain ⟨free, inside⟩ := own entry List.mem_cons_self item found
          rw [free, List.flatMap_cons, List.append_assoc]
          exact inside.append others
      | none =>
          cases isTaken : taken entry.1 with
          | false => exact others.trans (List.sublist_append_right _ _).subperm
          | true =>
              obtain ⟨notes, found, inside⟩ := kept entry List.mem_cons_self isTaken
              rw [if_pos rfl, List.filterMap_cons, found, List.flatten_cons]
              exact List.perm_append_comm_assoc _ _ _ |>.subperm.trans (inside.append others)

namespace Code

/-- The comments of a run are those of its tokens but the first. -/
theorem notes_bare {code : List CodeToken} (bound : Bound code) :
    Token.notes (bare code) = Token.notes (code.tail.flatMap CodeToken.comments) := by
  cases code with
  | nil => rfl
  | cons first rest =>
      obtain ⟨here, later⟩ := Bound.cons.mp bound
      rw [bare, Token.notes_cons, Token.notes_code here.token, notes_flat later]
      rfl

theorem notes_text {code : List CodeToken} {tail : Text} (chain : Token.Chain (run code) tail)
    (bound : Bound code) : (text code).notes = Token.notes (bare code) := by
  have alone := Text.notes_spell (chain_run_of_loose chain bound Token.loose_nil) Text.blank_nil
  rw [List.append_nil, spell_run] at alone
  rw [alone, notes_run]

/-- The brackets of an array type add no comment. -/
theorem notes_withDims {ty : Text} (clean : ty.Clean) (dims : Nat) :
    (withDims ty dims).notes = ty.notes := by
  obtain ⟨words, tells⟩ : ∃ words, Tells (List.replicate dims ['[', ']']).flatten words [] ∧
      Word.Headless words := by
    induction dims with
    | zero => exact ⟨[], .of_blank Text.blank_nil, Word.headless_nil⟩
    | succ dims ih =>
        obtain ⟨words, tells, head⟩ := ih
        have closing := Tells.word_append (Token.readsAs_mark (c := ']') (by decide) _) rfl
          head tells
        have both := Tells.word_append (Token.readsAs_mark (c := '[') (by decide) _) rfl
          (Word.headless_cons _ _ _) closing
        exact ⟨_, both, Word.headless_cons _ _ _⟩
  have loose : Token.Loose (List.replicate dims ['[', ']']).flatten := by
    cases dims with
    | zero => exact Token.loose_nil
    | succ dims => exact Token.loose_cons (by decide) _
  have whole := (clean.tells_append loose tells.2 tells.1).notes_lexFrom 0
  rw [List.append_nil] at whole
  exact whole

/-- Without the first token of each, runs that stand one after the other among some tokens stand
among these without the first. -/
theorem tails_sublist {parts : List (List CodeToken)} {code : List CodeToken}
    (sub : List.Sublist parts.flatten code) :
    List.Sublist (parts.flatMap List.tail) code.tail := by
  induction parts generalizing code with
  | nil => exact List.nil_sublist _
  | cons part parts ih =>
      rw [List.flatMap_cons]
      cases part with
      | nil => exact ih sub
      | cons first part =>
          have others : List.Sublist (parts.flatMap List.tail) parts.flatten :=
            (ih (List.Sublist.refl _)).trans (List.tail_sublist _)
          rw [List.flatten_cons, List.cons_append] at sub
          exact ((List.Sublist.refl part).append others).trans sub.tail

end Code

/-- The comments of a component stand in its field. -/
theorem FieldLayout.notes_sublist {piece : Piece} {decl : FieldDecl}
    (layout : FieldLayout piece decl) {tail : Text}
    (chain : Token.Chain (Code.flat piece.tokens) tail) (bound : Code.Bound piece.tokens) :
    List.Sublist decl.toComponent.notes (Token.notes (Code.bare piece.tokens)) := by
  have part : ∀ code ∈ layout.annotations ++ [layout.ty],
      (Code.text code).notes = Token.notes (code.tail.flatMap CodeToken.comments) := by
    intro code listed
    have inside := layout.infixes code listed
    obtain ⟨rest, chainPart⟩ := Code.chain_of_infix chain inside
    have boundPart := bound.of_infix inside
    rw [Code.notes_text (Code.chain_run chainPart) boundPart, Code.notes_bare boundPart]
  have clean : (Code.text layout.ty).Clean :=
    Code.clean_of_infix chain bound (layout.infixes layout.ty (by simp))
  have notes : decl.toComponent.notes =
      Token.notes (((layout.annotations ++ [layout.ty]).flatMap List.tail).flatMap
        CodeToken.comments) := by
    rw [RecordComponent.notes, FieldDecl.toComponent, layout.annotationTexts, layout.tyText,
      Code.notes_withDims clean, part layout.ty (by simp), List.flatMap_append, List.flatMap_append,
      Token.notes_append, List.flatMap_singleton]
    congr 1
    have annotations : ∀ code ∈ layout.annotations, (Code.text code).notes =
        Token.notes (code.tail.flatMap CodeToken.comments) :=
      fun code listed => part code (List.mem_append_left _ listed)
    generalize layout.annotations = codes at annotations
    induction codes with
    | nil => rfl
    | cons code codes ih =>
        rw [List.map_cons, List.flatMap_cons, List.flatMap_cons, List.flatMap_append,
          Token.notes_append, annotations code List.mem_cons_self,
          ih fun other listed => annotations other (List.mem_cons_of_mem _ listed)]
  have parts := layout.parts
  rw [← List.flatten_concat] at parts
  rw [notes, Code.notes_bare bound]
  exact Token.notes_sublist ((Code.tails_sublist parts).flatMap _)

namespace Outline

def converted (tree : SyntaxTree) : Outline → List NodeId
  | nil => []
  | leaf _ _ rest => rest.converted tree
  | type site _ members rest => members.converted tree ++
      ((if (tree.replacements.lookup site.id).isSome then [site.id] else []) ++ rest.converted tree)

/-- The comments that are written twice: those in the clauses of the classes that are converted. -/
def repeated (tree : SyntaxTree) (outline : Outline) : List Text :=
  (outline.converted tree).flatMap tree.clauseNotes

theorem repeated_type (tree : SyntaxTree) (site : Site) (shape : ClassShape)
    (members rest : Outline) : (type site shape members rest).repeated tree =
      (type site shape members nil).repeated tree ++ rest.repeated tree := by
  simp [repeated, converted]

theorem repeated_alone (tree : SyntaxTree) (site : Site) (shape : ClassShape) (members : Outline) :
    (type site shape members nil).repeated tree = members.repeated tree ++
      if (tree.replacements.lookup site.id).isSome then tree.clauseNotes site.id else [] := by
  simp only [repeated, converted, List.append_nil, List.flatMap_append]
  split <;> simp

theorem isSome_of_mem_converted {tree : SyntaxTree} {outline : Outline} {id : NodeId}
    (listed : id ∈ outline.converted tree) : (tree.replacements.lookup id).isSome = true := by
  induction outline with
  | nil => cases listed
  | leaf site node rest ih => exact ih listed
  | type site shape members rest ihMembers ihRest =>
      rw [converted, List.mem_append, List.mem_append] at listed
      rcases listed with inside | own | later
      · exact ihMembers inside
      · split at own
        · rename_i found
          rw [List.mem_singleton.mp own]
          exact found
        · cases own
      · exact ihRest later

/-- The classes that are converted stand in the order of their ids. -/
theorem Numbered.converted {tree : SyntaxTree} {outline : Outline} {low high : Nat}
    (numbered : outline.Numbered low high) : (outline.converted tree).Pairwise (· < ·) ∧
      ∀ id ∈ outline.converted tree, low ≤ id ∧ id < high := by
  induction outline generalizing low high with
  | nil => exact ⟨.nil, fun _ listed => absurd listed List.not_mem_nil⟩
  | leaf site node rest ih =>
      obtain ⟨rfl, numberedRest⟩ := numbered
      obtain ⟨sorted, bounds⟩ := ih numberedRest
      exact ⟨sorted, fun id listed =>
        ⟨Nat.le_of_succ_le (bounds id listed).1, (bounds id listed).2⟩⟩
  | type site shape members rest ihMembers ihRest =>
      obtain ⟨sortedMembers, members⟩ := ihMembers numbered.1
      obtain ⟨sortedRest, others⟩ := ihRest numbered.2
      have before := numbered.1.le
      have after := numbered.2.le
      have own : ∀ id ∈ (if (tree.replacements.lookup site.id).isSome then [site.id] else []),
          id = site.id := by
        intro id listed
        split at listed
        · exact List.mem_singleton.mp listed
        · cases listed
      constructor
      · refine List.pairwise_append.mpr
          ⟨sortedMembers, List.pairwise_append.mpr ⟨?_, sortedRest, ?_⟩, ?_⟩
        · split
          · exact List.pairwise_singleton _ _
          · exact .nil
        · intro id listed later isLater
          rw [own id listed]
          exact (others later isLater).1
        · intro id listed later isLater
          rcases List.mem_append.mp isLater with here | behind
          · rw [own later here]
            exact (members id listed).2
          · exact Nat.lt_trans (members id listed).2 (others later behind).1
      · intro id listed
        rw [Outline.converted, List.mem_append, List.mem_append] at listed
        rcases listed with inside | here | behind
        · exact ⟨(members id inside).1, Nat.lt_trans (members id inside).2 after⟩
        · rw [own id here]
          exact ⟨before, after⟩
        · exact ⟨Nat.le_trans before (Nat.le_of_lt (others id behind).1), (others id behind).2⟩

/-- The comments that each declaration may be written with: those of its tokens, and again those
that are written twice. -/
def allowed (tree : SyntaxTree) : Outline → List (NodeId × List Text)
  | nil => []
  | leaf site _ rest => (site.id, Token.notes site.tokens) :: rest.allowed tree
  | type site shape members rest => (site.id, Token.notes site.tokens ++
      (type site shape members nil).repeated tree) :: rest.allowed tree

theorem map_fst_allowed (tree : SyntaxTree) (outline : Outline) :
    (outline.allowed tree).map Prod.fst = outline.ids := by
  induction outline with
  | nil => rfl
  | leaf site node rest ih => rw [allowed, List.map_cons, ih, ids]
  | type site shape members rest _ ih => rw [allowed, List.map_cons, ih, ids]

theorem flatMap_allowed_subperm (tree : SyntaxTree) (outline : Outline) :
    ((outline.allowed tree).flatMap Prod.snd).Subperm
      (Token.notes outline.tokens ++ outline.repeated tree) := by
  induction outline with
  | nil => exact List.Subperm.refl _
  | leaf site node rest ih =>
      rw [allowed, List.flatMap_cons, tokens, Token.notes_append, List.append_assoc]
      exact (List.Subperm.refl _).append ih
  | type site shape members rest _ ih =>
      rw [allowed, List.flatMap_cons, tokens, Token.notes_append,
        repeated_type tree site shape members rest]
      refine List.subperm_ext_iff.mpr fun note _ => ?_
      have others := ih.count_le note
      simp only [List.count_append] at others ⊢
      omega

/-- Declarations are written with no other comments than they may be written with: in their place,
and each of them that is left one by one. -/
structure WritesNotes (tree : SyntaxTree) (outline : Outline) : Prop where
  inPlace : (outline.notes tree.printing).Subperm
    (Token.notes outline.tokens ++ outline.repeated tree)
  asMembers : ∀ entry ∈ outline.allowed tree,
    ¬ Rebuild.Gone tree.replacements tree.rebuild entry.1 →
      ∃ notes, List.lookup entry.1 (outline.memberNotes tree.printing) = some notes ∧
        notes.Subperm entry.2

/-- A first declaration with the declarations behind it. -/
theorem WritesNotes.cons {tree : SyntaxTree} {outline rest : Outline} {site : Site}
    {own noted may extra : List Text} (later : ∃ high, rest.Numbered (site.id + 1) high)
    (tokens : outline.tokens = site.tokens ++ rest.tokens)
    (repeated : outline.repeated tree = extra ++ rest.repeated tree)
    (entries : outline.allowed tree = (site.id, may) :: rest.allowed tree)
    (notes : outline.notes tree.printing = own ++ rest.notes tree.printing)
    (memberNotes : outline.memberNotes tree.printing =
      (site.id, noted) :: rest.memberNotes tree.printing)
    (inPlace : own.Subperm (Token.notes site.tokens ++ extra))
    (asMember : ¬ Rebuild.Gone tree.replacements tree.rebuild site.id → noted.Subperm may)
    (others : rest.WritesNotes tree) : outline.WritesNotes tree := by
  constructor
  · rw [tokens, repeated, notes, Token.notes_append]
    refine List.subperm_ext_iff.mpr fun note _ => ?_
    have here := inPlace.count_le note
    have behind := others.inPlace.count_le note
    simp only [List.count_append] at here behind ⊢
    omega
  · obtain ⟨_, numbered⟩ := later
    rw [entries, memberNotes]
    refine exists_lookup_cons (fun id => ¬ Rebuild.Gone tree.replacements tree.rebuild id)
      (fun may noted => List.Subperm noted may) (fun entry later => ?_) asMember others.asMembers
    have isId : entry.1 ∈ rest.ids := by
      rw [← map_fst_allowed tree]
      exact List.mem_map_of_mem later
    exact Nat.ne_of_gt (numbered.mem_ids isId).1

/-- The component that a field gives is written with comments of the field. -/
theorem Shaped.notes_of_field {source className : Text} {position : Nat} {outline : Outline}
    {tree : SyntaxTree} {tail : Text} (shaped : outline.Shaped source className position)
    (stands : outline.Stands source tree)
    (chain : Token.Chain (Code.flat (outline.pieces.flatMap Piece.tokens)) tail)
    (bound : Code.Bound (outline.pieces.flatMap Piece.tokens)) :
    ∀ entry ∈ outline.allowed tree, ∀ decl, tree.node? entry.1 = some (.field decl) →
      decl.toComponent.notes.Subperm entry.2 := by
  induction outline generalizing position with
  | nil => exact fun entry listed => absurd listed List.not_mem_nil
  | leaf site node rest ih =>
      rw [pieces, List.flatMap_cons, Code.flat_append, Token.chain_append] at chain
      rw [pieces, List.flatMap_cons, Code.Bound.append] at bound
      intro entry listed decl found
      rcases List.mem_cons.mp listed with rfl | later
      · rw [stands.1, Option.some.injEq] at found
        have own := shaped.1
        rw [found] at own
        obtain ⟨layout⟩ := FieldLayout.exists_of_memberShape own
        dsimp only
        rw [Site.tokens, Token.notes_append, Token.notes_append]
        exact ((layout.notes_sublist chain.1 bound.1).trans
          ((List.sublist_append_left _ _).trans (List.sublist_append_right _ _))).subperm
      · exact ih shaped.2 stands.2.2 chain.2 bound.2 entry later decl found
  | type site shape members rest _ ih =>
      rw [pieces, List.flatMap_cons, Code.flat_append, Token.chain_append] at chain
      rw [pieces, List.flatMap_cons, Code.Bound.append] at bound
      intro entry listed decl found
      rcases List.mem_cons.mp listed with rfl | later
      · obtain ⟨package, isClass⟩ := stands.1
        rw [isClass] at found
        cases found
      · exact ih shaped.2.2 stands.2.2.2 chain.2 bound.2 entry later decl found

variable {job : Printing}

/-- A member of a record is written with the comments around it, and not with those inside it that
are bound to it too. -/
theorem Bears.memberNotes_subperm {site : Site} {leading inner : List Comment} {trivia : Trivia}
    (bears : Bears job.tree (job.image site.id) trivia)
    (split : trivia.leading = leading ++ inner)
    (lead : leading = (site.placed job.tree.source).leading)
    (trail : trivia.trailing = site.trail.map Comment.ofToken)
    (late : ∀ comment ∈ inner,
      (site.placed job.tree.source).source.range.start < comment.span.stop)
    (comments : ∀ comment ∈ site.lead, comment.isComment = true)
    (trailing : ∀ comment ∈ site.trail, comment.isComment = true) (within : List Text) :
    (job.memberNotes site.id (site.placed job.tree.source).source within).Subperm
      (Token.notes site.lead ++ (within ++ Token.notes site.trail)) := by
  have after : (job.tree.trivia.trailing (job.image site.id)).map Comment.note =
      Token.notes site.trail := by
    rw [bears.trailing, trail, Comment.map_note_ofToken trailing]
  have none : inner.filter (fun comment => decide (comment.span.stop ≤
      (site.placed job.tree.source).source.range.start)) = [] := by
    refine List.filter_eq_nil_iff.mpr fun comment listed => ?_
    simpa using late comment listed
  have before : leading.map Comment.note = Token.notes site.lead := by
    rw [lead]
    exact Comment.map_note_ofToken comments
  rw [Printing.memberNotes, after, bears.leading, split, List.filter_append, none, List.append_nil,
    ← before]
  exact (List.filter_sublist.map _).subperm.append (List.Subperm.refl _)

/-- The comments inside the header of a class do not stand before the class. -/
theorem BodyTiles.late {site : Site} {shape : ClassShape} {members : Outline} {offset : Nat}
    {source : Text} {tail : Text} (body : BodyTiles offset site shape members)
    (layout : ClassLayout site.piece shape)
    (bound : Code.Bound site.piece.tokens) (placed : Token.Placed offset site.tokens)
    (chain : Token.Chain (Code.flat site.piece.tokens) tail) :
    ∀ comment ∈ (shape.comments ++ Code.openingComments shape).map Comment.ofToken,
      (site.placed source).source.range.start < comment.span.stop := by
  intro comment listed
  obtain ⟨token, isToken, rfl⟩ := List.mem_map.mp listed
  obtain ⟨front, isFront⟩ : ∃ front, site.front shape = site.piece.first :: front := by
    have split := body.tokens
    cases isFront : site.front shape with
    | nil => exact absurd isFront body.front
    | cons first front =>
        rw [isFront] at split
        exact ⟨front, by rw [(List.cons.inj split).1]⟩
  rw [body.split, isFront, Code.bare, List.append_assoc, List.append_assoc, List.append_assoc,
    Token.placed_append, List.cons_append, Token.placed_cons] at placed
  have isFirst := bound site.piece.first List.mem_cons_self
  have behind : token ∈ Code.flat front ++ (Code.openingComments shape ++ (members.tokens ++
      (members.dangling shape ++ shape.closing.token :: site.trail))) := by
    rcases List.mem_append.mp isToken with named | opened
    · have inFront := layout.comments_sublist.subset named
      rw [isFront, Code.bare] at inFront
      rcases List.mem_cons.mp inFront with rfl | later
      · obtain ⟨code, isCode, own⟩ := layout.exists_of_mem_comments named
        have := (bound code isCode).comments _ own
        rw [isFirst.token] at this
        cases this
      · exact List.mem_append_left _ later
    · exact List.mem_append_right _ (List.mem_append_left _ opened)
  have start := (placed.2.2.within behind).1
  have visible := Text.byteSize_pos_of_ne_nil _ (chain.visible site.piece.first.token (by
    rw [Piece.tokens, Code.flat_cons]
    simp))
  change site.piece.first.token.start < token.stop
  simp only [Token.stop] at start ⊢
  omega

/-- A class is written as a record with no other comments than it has, those in its clauses twice,
if its components and its members are. -/
theorem Bears.recordNotes_subperm {site : Site} {shape : ClassShape} {members : Outline}
    {record : RecordDecl} {decl : ClassDecl} {offset : Nat} {inner extra : List Text} {tail : Text}
    (bears : Bears job.tree (job.image site.id)
      (shape.trivia (site.placed job.tree.source) (members.stopFrom (Code.bodyStart shape))))
    (layout : ClassLayout site.piece shape) (body : BodyTiles offset site shape members)
    (bound : Code.Bound site.piece.tokens)
    (chain : Token.Chain (Code.flat site.piece.tokens) tail)
    (header : record.headerPrefix = shape.headerPrefix)
    (typeParams : record.typeParams = decl.typeParams)
    (interfaces : record.interfaces = decl.interfaces)
    (lead : ∀ comment ∈ site.lead, comment.isComment = true)
    (trail : ∀ comment ∈ site.trail, comment.isComment = true)
    (written : (record.components.flatMap RecordComponent.notes ++ inner).Subperm
      (Token.notes members.tokens ++ extra)) :
    (job.recordNotes site.id record inner).Subperm
      (Token.notes site.tokens ++ (extra ++ decl.clauseNotes)) := by
  have closing : Token.notes (shape.closing.token :: site.trail) = Token.notes site.trail := by
    have brace := bound shape.closing (by rw [layout.tokens]; simp)
    rw [Token.notes_cons, Token.notes_code brace.token, List.nil_append]
  refine List.subperm_ext_iff.mpr fun note _ => ?_
  have fewer := written.count_le note
  rw [bears.recordNotes_eq layout body bound lead trail, RecordDecl.headerNotes, header, typeParams,
    interfaces, body.split, ClassDecl.clauseNotes]
  simp only [Token.notes_append, closing, layout.notes_front chain bound,
    List.count_append] at fewer ⊢
  omega

end Outline

namespace SyntaxTree

variable {tree : SyntaxTree}

/-- The components of a record and the members that it takes over are written with no other comments
than the members of its class may be written with. -/
theorem members_written {id : NodeId} {replacement : Replacement} {decl : ClassDecl}
    {members : Outline} (chosen : tree.replacements.lookup id = some replacement)
    (present : tree.class? id = some decl) (ids : decl.members = members.ids)
    (fields : ∀ entry ∈ members.allowed tree, ∀ field, tree.node? entry.1 = some (.field field) →
      field.toComponent.notes.Subperm entry.2)
    (stay : ∀ member ∈ replacement.partition.retained,
      ¬ Rebuild.Gone tree.replacements tree.rebuild member)
    (inner : ∀ entry ∈ members.allowed tree,
      ¬ Rebuild.Gone tree.replacements tree.rebuild entry.1 →
        ∃ notes, List.lookup entry.1 (members.memberNotes tree.printing) = some notes ∧
          notes.Subperm entry.2) :
    (replacement.record.components.flatMap RecordComponent.notes ++
      (replacement.partition.retained.filterMap fun id =>
        List.lookup id (members.memberNotes tree.printing)).flatten).Subperm
      (Token.notes members.tokens ++ members.repeated tree) := by
  obtain ⟨eligible, made⟩ := exists_eligible chosen present
  have components : replacement.record.components =
      (tree.instanceFieldsOf decl).map FieldDecl.toComponent :=
    congrArg RecordDecl.components (made.record fun member => member)
  rw [components, List.flatMap_map, instanceFieldsOf, made.retained, ids,
    ← members.map_fst_allowed tree]
  refine (given_noted_subperm ?_ ?_).trans (members.flatMap_allowed_subperm tree)
  · intro entry listed field found
    split at found
    · rename_i isField
      split at found
      · cases found
      · rename_i notStatic
        cases found
        exact ⟨by simp [provides, isField, notStatic], fields entry listed field isField⟩
    · cases found
  · intro entry listed taken
    refine inner entry listed (stay entry.1 ?_)
    rw [made.retained]
    refine List.mem_filter.mpr ⟨?_, taken⟩
    rw [ids, ← members.map_fst_allowed tree]
    exact List.mem_map_of_mem listed

end SyntaxTree

namespace ParsedUnit

variable {source : Text} {tree : SyntaxTree} (unit : ParsedUnit source tree)

include unit

section

variable {tail : List Token} {indent : Text} {offset : Nat} {site : Site} {shape : ClassShape}
  {members rest : Outline}

theorem writesNotes_leaf {node : Node}
    (block : Outline.LeafInBlock source tree tail indent offset site node rest)
    (others : rest.WritesNotes tree) : (Outline.leaf site node rest).WritesNotes tree := by
  refine .cons block.later rfl (List.nil_append _).symm rfl rfl rfl ?_ (fun stays => ?_) others
  · rw [List.append_nil]
  · obtain ⟨_, ready⟩ := block.ready
    have image := unit.bears_image (by rw [block.found]; rfl) stays block.bears
    have written := image.memberNotes_subperm (List.append_nil _).symm rfl rfl
      (fun comment listed => absurd listed List.not_mem_nil) ready.lead ready.trail
      (Token.notes (Code.run site.piece.tokens))
    rw [Site.tokens, Token.notes_append, Token.notes_append]
    nth_rewrite 2 [Code.notes_run] at written
    exact written

theorem writesNotes_kept
    (block : Outline.ClassInBlock source tree tail indent offset site shape members rest)
    (kept : tree.printing.record? site.id = none) (inner : members.WritesNotes tree)
    (others : rest.WritesNotes tree) : (Outline.type site shape members rest).WritesNotes tree := by
  obtain ⟨layout⟩ := block.layout
  obtain ⟨after, chain⟩ := block.chain
  obtain ⟨_, ready⟩ := block.ready
  have alone : (Outline.type site shape members .nil).repeated tree = members.repeated tree := by
    have chosen : tree.replacements.lookup site.id = none := Option.map_eq_none_iff.mp kept
    rw [Outline.repeated_alone, chosen]
    exact List.append_nil _
  refine .cons block.later rfl (Outline.repeated_type ..) rfl (by rw [Outline.notes, kept])
    (by rw [Outline.memberNotes, kept]) ?_ (fun _ => ?_) others
  · rw [alone, block.body.split]
    refine List.subperm_ext_iff.mpr fun note _ => ?_
    have fewer := inner.inPlace.count_le note
    simp only [Token.notes_append, List.count_append] at fewer ⊢
    omega
  · have written := (unit.bears_class block).memberNotes_subperm rfl rfl rfl
      (block.body.late layout block.bound block.placed chain) ready.lead ready.trail
      (Token.notes (Code.run (site.front shape) ++ Code.openingComments shape) ++
        (members.notes tree.printing ++
          Token.notes (members.dangling shape ++ [shape.closing.token])))
    rw [alone, block.body.split]
    refine written.trans (List.subperm_ext_iff.mpr fun note _ => ?_)
    have fewer := inner.inPlace.count_le note
    have closing : Token.notes (shape.closing.token :: site.trail) =
        Token.notes [shape.closing.token] ++ Token.notes site.trail := by
      rw [← Token.notes_append]
      rfl
    simp only [Token.notes_append, Code.notes_run, closing, List.count_append] at fewer ⊢
    omega

theorem writesNotes_converted {record : RecordDecl}
    (block : Outline.ClassInBlock source tree tail indent offset site shape members rest)
    (converted : tree.printing.record? site.id = some record) (inner : members.WritesNotes tree)
    (others : rest.WritesNotes tree) : (Outline.type site shape members rest).WritesNotes tree := by
  obtain ⟨package, found⟩ := block.found
  obtain ⟨layout⟩ := block.layout
  obtain ⟨after, chain⟩ := block.chain
  obtain ⟨_, ready⟩ := block.ready
  have present := SyntaxTree.class?_of_node? found
  obtain ⟨replacement, chosen, rfl⟩ := Option.map_eq_some_iff.mp converted
  obtain ⟨_, _, _, made⟩ := SyntaxTree.record_of_replacement chosen present
  have memberLexed := block.members.lexed
  obtain ⟨memberAfter, memberChain⟩ := memberLexed.chain
  have written := SyntaxTree.members_written chosen present rfl
    (block.shaped.notes_of_field block.members.stands (Token.chain_append.mp memberChain).1
      memberLexed.bound)
    (fun member listed => unit.not_gone_of_retained chosen present listed) inner.asMembers
  have retained : replacement.record.members = replacement.partition.retained := by rw [made]
  rw [← retained] at written
  have whole := (unit.bears_class block).recordNotes_subperm layout block.body block.bound chain
    (by rw [made]; rfl) (by rw [made]) (by rw [made]) ready.lead ready.trail written
  have clauses : tree.clauseNotes site.id = _ :=
    congrArg (fun found => (Option.map ClassDecl.clauseNotes found).getD []) present
  have alone : (Outline.type site shape members .nil).repeated tree =
      members.repeated tree ++ tree.clauseNotes site.id := by
    rw [Outline.repeated_alone, chosen]
    rfl
  rw [← clauses.trans (Option.getD_some ..), ← alone] at whole
  exact .cons block.later rfl (Outline.repeated_type ..) rfl (by rw [Outline.notes, converted])
    (by rw [Outline.memberNotes, converted]) whole (fun _ => whole) others

end

/-- Declarations are written with no other comments than they have, those in the clauses of the
classes that are converted twice. -/
theorem writesNotes {tail : List Token} {indent : Text} {offset : Nat} {outline : Outline}
    (block : outline.InBlock source tree tail indent offset) : outline.WritesNotes tree := by
  induction outline generalizing tail indent offset with
  | nil => exact ⟨List.Subperm.refl _, fun entry listed => absurd listed List.not_mem_nil⟩
  | leaf site node rest ih => exact unit.writesNotes_leaf block.leaf (ih block.leaf.rest)
  | type site shape members rest ihMembers ihRest =>
      have inner := ihMembers block.class.members
      have others := ihRest block.class.rest
      cases converted : tree.printing.record? site.id with
      | none => exact unit.writesNotes_kept block.class converted inner others
      | some record => exact unit.writesNotes_converted block.class converted inner others

/-- The comments of a converted source are those of the source, those in the clauses of the classes
that are converted twice. -/
theorem written_subperm : (unit.outline.notes tree.printing ++ Token.notes (Code.commentsFrom
      (unit.outline.stopFrom 0) (Code.ofTokens unit.tokens).tail)).Subperm
    (Token.notes unit.tokens ++ unit.outline.repeated tree) := by
  have inner := unit.writesNotes unit.inBlock
  nth_rewrite 2 [unit.joined]
  refine List.subperm_ext_iff.mpr fun note _ => ?_
  have fewer := inner.inPlace.count_le note
  simp only [Token.notes_append, List.count_append] at fewer ⊢
  omega

theorem repeated_subperm :
    (unit.outline.repeated tree).Subperm (tree.repeatedNotes tree.convertUnit.reports) := by
  have inReports : unit.outline.converted tree ⊆ (tree.convertUnit.reports.filter
      fun report => report.outcome.isConverted).map ClassReport.id := by
    intro id listed
    obtain ⟨report, isReport, rfl, _, _, _, outcome⟩ :=
      (tree.converts_iff id _).mpr ⟨Outline.isSome_of_mem_converted listed, rfl⟩
    exact List.mem_map_of_mem (List.mem_filter.mpr ⟨isReport, by rw [outcome]; rfl⟩)
  have distinct : (unit.outline.converted tree).Nodup :=
    (Outline.Numbered.converted unit.numbered).1.imp Nat.ne_of_lt
  obtain ⟨others, same, sub⟩ := List.subperm_of_subset distinct inReports
  rw [SyntaxTree.repeatedNotes, ← List.flatMap_map ClassReport.id tree.clauseNotes]
  exact ⟨_, same.flatMap_right _, sub.flatMap _⟩

end ParsedUnit

/-- A converted source has no comment more often than its source, up to blank text at their ends,
except that those in the type parameters and the implemented interfaces of converted classes may
stand there again. -/
theorem notes_convertSource {source : Text} {conversion : SourceConversion}
    (converts : convertSource source = .ok conversion) :
    ∃ tree tokens output, parse source = .ok tree ∧ lex source = .ok tokens ∧
      lex conversion.output = .ok output ∧
      (Token.notes output).Subperm
        (Token.notes tokens ++ tree.repeatedNotes conversion.reports) := by
  obtain ⟨tree, unit, parsed, rfl⟩ := ParsedUnit.exists_of_convertSource converts
  refine ⟨tree, unit.tokens, _, parsed, unit.lex_source, unit.lex_converted, ?_⟩
  rw [lexAll, unit.tells_convertUnit.notes_lexFrom 0]
  exact unit.written_subperm.trans ((List.Subperm.refl _).append unit.repeated_subperm)

/-- A class with a comment in its type parameters, which becomes a record. -/
def boundedPoint : Text :=
  ("class P<T /*c*/>\x7bprivate final T x;P(T x){this.x=x;}\x7d").toList

theorem boundedPoint_notes_convertSource :
    ∃ tree conversion tokens output, parse boundedPoint = .ok tree ∧
      convertSource boundedPoint = .ok conversion ∧ lex boundedPoint = .ok tokens ∧
      lex conversion.output = .ok output ∧
      (Token.notes output).Subperm
        (Token.notes tokens ++ tree.repeatedNotes conversion.reports) := by
  obtain ⟨reports, converts⟩ := convertSource_of_loneOutput?
    (show loneOutput? boundedPoint =
      some "/*c*/\nrecord P<T /*c*/>(T x) \x7b\n\x7d".toList by decide +kernel)
  obtain ⟨tree, tokens, output, parsed, lexed, read, notes⟩ := notes_convertSource converts
  exact ⟨tree, _, tokens, output, parsed, converts, lexed, read, notes⟩

/-- The comment is written in front of the record and in its type parameters. -/
theorem boundedPoint_repeats_note :
    ∃ conversion tokens output, convertSource boundedPoint = .ok conversion ∧
      lex boundedPoint = .ok tokens ∧ lex conversion.output = .ok output ∧
      ¬ (Token.notes output).Subperm (Token.notes tokens) := by
  have made : loneOutput? boundedPoint =
      some "/*c*/\nrecord P<T /*c*/>(T x) \x7b\n\x7d".toList := by
    decide +kernel
  obtain ⟨reports, converts⟩ := convertSource_of_loneOutput? made
  have before : (lex boundedPoint).toOption.map Token.notes = some ["/*c*/".toList] := by
    decide +kernel
  have after : (lex "/*c*/\nrecord P<T /*c*/>(T x) \x7b\n\x7d".toList).toOption.map Token.notes =
      some ["/*c*/".toList, "/*c*/".toList] := by
    decide +kernel
  obtain ⟨_, tokens, output, _, lexed, read, _⟩ := notes_convertSource converts
  rw [lexed] at before
  rw [read] at after
  refine ⟨_, tokens, output, converts, lexed, read, fun contained => ?_⟩
  rw [Option.some.inj before, Option.some.inj after] at contained
  exact absurd contained.length_le (by decide)

end JavaRecords
