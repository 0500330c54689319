import Mathlib.Data.List.Perm.Subperm
import JavaRecords.Proofs.Conversion.Image
import JavaRecords.Proofs.Parse.Ranges

set_option autoImplicit false

namespace JavaRecords

namespace SyntaxTree

/-- The members of a class that its record provides by itself. -/
def elidedMembers (tree : SyntaxTree) (id : NodeId) : List NodeId :=
  match (tree.judge id).verdict with
  | .replace replacement => replacement.partition.elided.map Prod.fst
  | _ => []

/-- Whether a token stands in the extent of a member that is left out, as the record of a class that
is reported as converted provides it by itself. -/
def omits (tree : SyntaxTree) (reports : List ClassReport) (token : Token) : Bool :=
  reports.any fun report => report.outcome.isConverted &&
    (tree.elidedMembers report.id).any fun member =>
      (tree.extentOf member).containsSpan token.span

end SyntaxTree

namespace Token

theorem notes_sublist {tokens others : List Token} (sub : List.Sublist tokens others) :
    List.Sublist (notes tokens) (notes others) :=
  (sub.filter _).map _

end Token

namespace Code

theorem notes_flat {code : List CodeToken} (bound : Bound code) :
    Token.notes (flat code) = Token.notes (code.flatMap CodeToken.comments) := by
  induction code with
  | nil => rfl
  | cons first rest ih =>
      obtain ⟨here, later⟩ := Bound.cons.mp bound
      rw [flat_cons, Token.notes_append, Token.notes_cons, Token.notes_code here.token, ih later,
        List.flatMap_cons, Token.notes_append, List.nil_append]

/-- The first token of a run may lose the blank text before it. -/
theorem notes_run (code : List CodeToken) : Token.notes (run code) = Token.notes (bare code) := by
  cases code with
  | nil => rfl
  | cons first rest =>
      rw [run, bare, Token.notes_cons, Token.notes_cons first.token,
        Token.notes_moved first.token [] first.token.start]

end Code

namespace ClassLayout

variable {site : Site} {shape : ClassShape} (layout : ClassLayout site.piece shape)

include layout

/-- The comments in the header of a class are those of its modifiers and those after its keyword. -/
theorem notes_front {tail : Text} (chain : Token.Chain (Code.flat site.piece.tokens) tail)
    (bound : Code.Bound site.piece.tokens) : Token.notes (Code.bare (site.front shape)) =
      shape.headerPrefix.notes ++ Token.notes shape.comments := by
  have inside : layout.taken ++ [layout.keyword] <:+: site.piece.tokens := by
    rw [layout.tokens]
    exact ⟨[], layout.name :: (layout.params ++ (shape.clauses ++
      shape.opening :: (shape.inside ++ [shape.closing]))), by simp⟩
  obtain ⟨_, chainFront⟩ := Code.chain_of_infix chain inside
  obtain ⟨space, blank, same, alone, _⟩ := Code.exists_headerPrefix chainFront layout.isClass
  rw [layout.headerPrefix, same, Text.notes_spell alone blank, layout.comments]
  rw [layout.tokens] at bound
  obtain ⟨boundTaken, boundKeyword⟩ := Code.Bound.append.mp bound
  obtain ⟨keyword, boundRest⟩ := Code.Bound.cons.mp boundKeyword
  have boundHeader : Code.Bound
    (layout.name :: (layout.params ++ (shape.clauses ++ [shape.opening]))) := by
    intro code listed
    refine boundRest code ?_
    simp only [List.mem_cons, List.mem_append, List.not_mem_nil, or_false] at listed ⊢
    tauto
  rw [← Code.notes_flat boundHeader, layout.front_eq]
  have isCode : Token.notes [layout.keyword.token] = [] := Token.notes_code keyword.token
  cases layout.taken with
  | nil => rw [List.nil_append, Code.bare, Token.notes_cons, isCode]; rfl
  | cons first rest =>
      rw [Code.bare_append (by simp), Code.flat_cons, Token.notes_append, Token.notes_append,
        Token.notes_cons layout.keyword.token, isCode, Code.modifierTokens, if_neg (by simp),
        Token.notes_append, Code.notes_run]
      simp

end ClassLayout

namespace Outline

def parts : Outline → List (NodeId × List Token)
  | nil => []
  | leaf site _ rest => (site.id, site.tokens) :: rest.parts
  | type site _ _ rest => (site.id, site.tokens) :: rest.parts

theorem map_fst_parts (outline : Outline) : outline.parts.map Prod.fst = outline.ids := by
  induction outline with
  | nil => rfl
  | leaf site node rest ih => rw [parts, List.map_cons, ih, ids]
  | type site shape members rest _ ih => rw [parts, List.map_cons, ih, ids]

theorem flatMap_snd_parts (outline : Outline) :
    outline.parts.flatMap Prod.snd = outline.tokens := by
  induction outline with
  | nil => rfl
  | leaf site node rest ih => rw [parts, List.flatMap_cons, ih, tokens]
  | type site shape members rest _ ih => rw [parts, List.flatMap_cons, ih, tokens]

theorem exists_lookup_cons {α β : Type} {entries : List (NodeId × α)} {found : List (NodeId × β)}
    {id : NodeId} {value : α} {own : β} (stays : NodeId → Prop) (holds : α → β → Prop)
    (distinct : ∀ entry ∈ entries, entry.1 ≠ id) (here : stays id → holds value own)
    (others : ∀ entry ∈ entries, stays entry.1 →
      ∃ other, List.lookup entry.1 found = some other ∧ holds entry.2 other) :
    ∀ entry ∈ (id, value) :: entries, stays entry.1 →
      ∃ other, List.lookup entry.1 ((id, own) :: found) = some other ∧ holds entry.2 other := by
  intro entry listed stay
  rcases List.mem_cons.mp listed with rfl | later
  · exact ⟨own, List.lookup_cons_self, here stay⟩
  · obtain ⟨other, inFound, holdsOther⟩ := others entry later stay
    refine ⟨other, ?_, holdsOther⟩
    rw [List.lookup_cons, beq_false_of_ne (distinct entry later)]
    exact inFound

/-- The notes of some of the parts of a block: those of the parts that are taken, if the others have
none. -/
theorem notes_parts_subperm {keep : Token → Bool} {noted : NodeId → Option (List Text)}
    {parts : List (NodeId × List Token)} {taken : List NodeId}
    (sub : List.Sublist taken (parts.map Prod.fst)) (distinct : (parts.map Prod.fst).Nodup)
    (inside : ∀ part ∈ parts, part.1 ∈ taken → ∃ notes, noted part.1 = some notes ∧
      (Token.notes (part.2.filter keep)).Subperm notes)
    (outside : ∀ part ∈ parts, part.1 ∉ taken → part.2.filter keep = []) :
    (Token.notes ((parts.flatMap Prod.snd).filter keep)).Subperm
      (taken.filterMap noted).flatten := by
  induction parts generalizing taken with
  | nil => exact List.nil_subperm
  | cons part parts ih =>
      obtain ⟨fresh, distinct⟩ := List.nodup_cons.mp distinct
      rw [List.flatMap_cons, List.filter_append, Token.notes_append]
      have others : ∀ rest : List NodeId, (∀ other ∈ parts, other.1 ∈ taken ↔ other.1 ∈ rest) →
          (∀ other ∈ parts, other.1 ∈ rest → ∃ notes, noted other.1 = some notes ∧
            (Token.notes (other.2.filter keep)).Subperm notes) ∧
          ∀ other ∈ parts, other.1 ∉ rest → other.2.filter keep = [] := by
        intro rest same
        exact ⟨fun other listed among => inside other (List.mem_cons_of_mem _ listed)
            ((same other listed).mpr among),
          fun other listed none => outside other (List.mem_cons_of_mem _ listed)
            fun among => none ((same other listed).mp among)⟩
      cases sub with
      | cons _ sub =>
          -- the part is not taken
          have free : part.1 ∉ taken := fun listed => fresh (sub.subset listed)
          obtain ⟨kept, dropped⟩ := others taken fun _ _ => Iff.rfl
          rw [outside part List.mem_cons_self free, Token.notes_nil, List.nil_append]
          exact ih sub distinct kept dropped
      | @cons_cons rest _ _ sub =>
          obtain ⟨notes, found, own⟩ := inside part List.mem_cons_self List.mem_cons_self
          obtain ⟨kept, dropped⟩ := others rest fun other listed => by
            have different : other.1 ≠ part.1 := by
              intro same
              exact fresh (same ▸ List.mem_map_of_mem listed)
            simp [different]
          rw [List.filterMap_cons, found, List.flatten_cons]
          exact own.append (ih sub distinct kept dropped)

section

variable {tree : SyntaxTree} {id : NodeId} {trivia : Trivia}

theorem Bears.leading (bears : Bears tree id trivia) : tree.trivia.leading id = trivia.leading := by
  rw [TriviaTable.leading, bears]
  split
  · rename_i empty
    simp only [Trivia.isEmpty, Bool.and_eq_true, List.isEmpty_iff] at empty
    exact empty.1.1.symm
  · rfl

theorem Bears.trailing (bears : Bears tree id trivia) :
    tree.trivia.trailing id = trivia.trailing := by
  rw [TriviaTable.trailing, bears]
  split
  · rename_i empty
    simp only [Trivia.isEmpty, Bool.and_eq_true, List.isEmpty_iff] at empty
    exact empty.1.2.symm
  · rfl

theorem Bears.dangling (bears : Bears tree id trivia) :
    tree.trivia.dangling id = trivia.dangling := by
  rw [TriviaTable.dangling, bears]
  split
  · rename_i empty
    simp only [Trivia.isEmpty, Bool.and_eq_true, List.isEmpty_iff] at empty
    exact empty.2.symm
  · rfl

end

variable {job : Printing}

/-- The comments before a declaration are written before it as a member, and others may be bound to
it that stand inside. -/
theorem Bears.lead_sublist {site : Site} {leading inner : List Comment} {trivia : Trivia}
    {offset : Nat} (bears : Bears job.tree (job.image site.id) trivia)
    (split : trivia.leading = leading ++ inner)
    (lead : leading = (site.placed job.tree.source).leading)
    (tiles : site.Tiles offset) (placed : Token.Placed offset site.tokens)
    (comments : ∀ comment ∈ site.lead, comment.isComment = true) :
    List.Sublist (Token.notes site.lead)
      (((job.tree.trivia.leading (job.image site.id)).filter fun comment =>
        comment.span.stop ≤ (site.placed job.tree.source).source.range.start).map
          Comment.note) := by
  have early : ∀ comment ∈ leading,
      comment.span.stop ≤ (site.placed job.tree.source).source.range.start := by
    intro comment listed
    rw [lead] at listed
    obtain ⟨token, isToken, rfl⟩ := List.mem_map.mp listed
    obtain ⟨front, _⟩ := Token.placed_append.mp placed
    have stop := (front.within isToken).2
    have start := tiles.start
    change token.stop ≤ site.piece.first.start
    omega
  rw [bears.leading, split, List.filter_append, List.filter_eq_self.mpr (by simpa using early),
    List.map_append, lead]
  have same : (site.placed job.tree.source).leading.map Comment.note = Token.notes site.lead :=
    Comment.map_note_ofToken comments
  rw [same]
  exact List.sublist_append_left _ _

/-- A declaration is written with all of its comments as a member of a record, if the new tree has
the comments around it. -/
theorem Bears.member_subperm {site : Site} {leading inner : List Comment} {trivia : Trivia}
    {offset : Nat} {within : List Text} {middle : List Token}
    (bears : Bears job.tree (job.image site.id) trivia)
    (split : trivia.leading = leading ++ inner)
    (lead : leading = (site.placed job.tree.source).leading)
    (trail : trivia.trailing = site.trail.map Comment.ofToken)
    (tiles : site.Tiles offset) (placed : Token.Placed offset site.tokens)
    (comments : ∀ comment ∈ site.lead, comment.isComment = true)
    (trailing : ∀ comment ∈ site.trail, comment.isComment = true) {keep : Token → Bool}
    (tokens : site.tokens = site.lead ++ (middle ++ site.trail))
    (kept : (Token.notes (middle.filter keep)).Subperm within) :
    (Token.notes (site.tokens.filter keep)).Subperm
      (job.memberNotes site.id (site.placed job.tree.source).source within) := by
  have before := bears.lead_sublist split lead tiles placed comments
  have after : (job.tree.trivia.trailing (job.image site.id)).map Comment.note =
      Token.notes site.trail := by
    rw [bears.trailing, trail, Comment.map_note_ofToken trailing]
  rw [tokens, List.filter_append, List.filter_append, Token.notes_append, Token.notes_append,
    Printing.memberNotes, after]
  exact ((Token.notes_sublist List.filter_sublist).trans before).subperm.append
    (kept.append (Token.notes_sublist List.filter_sublist).subperm)

/-- The comments of a record: those of its class, those in its header and those of its members. -/
theorem Bears.recordNotes_eq {site : Site} {shape : ClassShape} {members : Outline}
    {offset : Nat}
    (bears : Bears job.tree (job.image site.id)
      (shape.trivia (site.placed job.tree.source) (members.stopFrom (Code.bodyStart shape))))
    (layout : ClassLayout site.piece shape) (body : BodyTiles offset site shape members)
    (bound : Code.Bound site.piece.tokens)
    (lead : ∀ comment ∈ site.lead, comment.isComment = true)
    (trail : ∀ comment ∈ site.trail, comment.isComment = true) (record : RecordDecl)
    (inner : List Text) :
    job.recordNotes site.id record inner = (Token.notes site.lead ++ (Token.notes shape.comments
      ++ Token.notes (Code.openingComments shape))) ++ (record.headerNotes ++ (inner ++
        (Token.notes (members.dangling shape) ++ Token.notes site.trail))) := by
  obtain ⟨_, opening, dangling⟩ := body.bound bound
  have shapeComments : ∀ comment ∈ shape.comments, comment.isComment = true := by
    intro comment listed
    obtain ⟨code, isCode, own⟩ := layout.exists_of_mem_comments listed
    exact (bound code isCode).comments comment own
  have headComments : ∀ comment ∈ shape.comments ++ Code.openingComments shape,
      comment.isComment = true := by
    intro comment listed
    rcases List.mem_append.mp listed with named | opened
    · exact shapeComments comment named
    · exact opening comment opened
  have leading : (job.tree.trivia.leading (job.image site.id)).map Comment.note =
      Token.notes site.lead ++ (Token.notes shape.comments
        ++ Token.notes (Code.openingComments shape)) := by
    rw [bears.leading, ClassShape.trivia, List.map_append, Comment.map_note_ofToken headComments,
      Token.notes_append]
    exact congrArg (· ++ _) (Comment.map_note_ofToken lead)
  have below : (job.tree.trivia.dangling (job.image site.id)).map Comment.note =
      Token.notes (members.dangling shape) := by
    rw [bears.dangling]
    exact Comment.map_note_ofToken dangling
  have after : (job.tree.trivia.trailing (job.image site.id)).map Comment.note =
      Token.notes site.trail := by
    rw [bears.trailing]
    exact Comment.map_note_ofToken trail
  rw [Printing.recordNotes, leading, below, after]

/-- A class is written with all of its comments as a record, except those in the members that the
record provides by itself. -/
theorem Bears.record_subperm {site : Site} {shape : ClassShape} {members : Outline}
    {record : RecordDecl} {offset : Nat} {keep : Token → Bool} {inner : List Text} {tail : Text}
    (bears : Bears job.tree (job.image site.id)
      (shape.trivia (site.placed job.tree.source) (members.stopFrom (Code.bodyStart shape))))
    (layout : ClassLayout site.piece shape) (body : BodyTiles offset site shape members)
    (bound : Code.Bound site.piece.tokens)
    (chain : Token.Chain (Code.flat site.piece.tokens) tail)
    (header : record.headerPrefix = shape.headerPrefix)
    (lead : ∀ comment ∈ site.lead, comment.isComment = true)
    (trail : ∀ comment ∈ site.trail, comment.isComment = true)
    (kept : (Token.notes (members.tokens.filter keep)).Subperm inner) :
    (Token.notes (site.tokens.filter keep)).Subperm (job.recordNotes site.id record inner) := by
  have closing : Token.notes (shape.closing.token :: site.trail) = Token.notes site.trail := by
    have brace := bound shape.closing (by rw [layout.tokens]; simp)
    rw [Token.notes_cons, Token.notes_code brace.token, List.nil_append]
  have fewer : (Token.notes (site.tokens.filter keep)).Subperm
      (Token.notes (site.lead ++ Code.bare (site.front shape) ++ Code.openingComments shape) ++
        (inner ++ Token.notes (members.dangling shape ++ shape.closing.token :: site.trail))) := by
    rw [body.split, List.filter_append, List.filter_append, Token.notes_append, Token.notes_append,
      List.append_assoc]
    exact (Token.notes_sublist List.filter_sublist).subperm.append
      (kept.append (Token.notes_sublist List.filter_sublist).subperm)
  refine fewer.trans (List.subperm_ext_iff.mpr fun note _ => ?_)
  rw [bears.recordNotes_eq layout body bound lead trail, RecordDecl.headerNotes, header]
  simp only [Token.notes_append, closing, layout.notes_front chain bound, List.count_append]
  omega

theorem Stands.extents_parts {source : Text} {tree : SyntaxTree} {outline : Outline} {offset : Nat}
    (stands : outline.Stands source tree) (plain : outline.PlainLeaves source)
    (tiles : outline.Tiles offset) (placed : Token.Placed offset outline.tokens) :
    ∀ part ∈ outline.parts, ∀ token ∈ part.2,
      (tree.extentOf part.1).containsSpan token.span = true := by
  have own : ∀ {site : Site} {offset : Nat}, site.Tiles offset →
      Token.Placed offset site.tokens → tree.extentOf site.id = ⟨site.cursor, site.stop⟩ →
      ∀ token ∈ site.tokens, (tree.extentOf site.id).containsSpan token.span = true := by
    intro site offset tiles placed extent token listed
    obtain ⟨start, stop⟩ := placed.within listed
    rw [extent, tiles.cursor, tiles.stop, Span.containsSpan]
    simp only [Bool.and_eq_true, decide_eq_true_eq]
    exact ⟨start, stop⟩
  induction outline generalizing offset with
  | nil => exact fun part listed => absurd listed List.not_mem_nil
  | leaf site node rest ih =>
      obtain ⟨found, _, restStands⟩ := stands
      obtain ⟨sitePlaced, restPlaced⟩ := Token.placed_append.mp placed
      rw [← tiles.1.stop] at restPlaced
      intro part listed
      rcases List.mem_cons.mp listed with rfl | later
      · exact own tiles.1 sitePlaced (SyntaxTree.extentOf_eq found plain.1.source?_eq)
      · exact ih restStands plain.2 tiles.2 restPlaced part later
  | type site shape members rest _ ih =>
      obtain ⟨⟨_, found⟩, _, _, restStands⟩ := stands
      obtain ⟨siteTiles, _, _, restTiles⟩ := tiles
      obtain ⟨sitePlaced, restPlaced⟩ := Token.placed_append.mp placed
      rw [← siteTiles.stop] at restPlaced
      intro part listed
      rcases List.mem_cons.mp listed with rfl | later
      · exact own siteTiles sitePlaced (SyntaxTree.extentOf_eq found rfl)
      · exact ih restStands plain.2 restTiles restPlaced part later

/-- The comments of declarations are written, all in their place and those of each declaration that
is left one by one. -/
structure KeepsNotes (tree : SyntaxTree) (keep : Token → Bool) (outline : Outline) : Prop where
  inPlace : (Token.notes (outline.tokens.filter keep)).Subperm (outline.notes tree.printing)
  asMembers : ∀ part ∈ outline.parts, ¬ Rebuild.Gone tree.replacements tree.rebuild part.1 →
    ∃ notes, List.lookup part.1 (outline.memberNotes tree.printing) = some notes ∧
      (Token.notes (part.2.filter keep)).Subperm notes

/-- A first declaration with the declarations behind it. -/
theorem KeepsNotes.cons {tree : SyntaxTree} {keep : Token → Bool} {outline rest : Outline}
    {site : Site} {own noted : List Text} (later : ∃ high, rest.Numbered (site.id + 1) high)
    (tokens : outline.tokens = site.tokens ++ rest.tokens)
    (parts : outline.parts = (site.id, site.tokens) :: rest.parts)
    (notes : outline.notes tree.printing = own ++ rest.notes tree.printing)
    (memberNotes : outline.memberNotes tree.printing =
      (site.id, noted) :: rest.memberNotes tree.printing)
    (inPlace : (Token.notes (site.tokens.filter keep)).Subperm own)
    (asMember : ¬ Rebuild.Gone tree.replacements tree.rebuild site.id →
      (Token.notes (site.tokens.filter keep)).Subperm noted)
    (others : rest.KeepsNotes tree keep) : outline.KeepsNotes tree keep := by
  constructor
  · rw [tokens, List.filter_append, Token.notes_append, notes]
    exact inPlace.append others.inPlace
  · obtain ⟨_, numbered⟩ := later
    rw [parts, memberNotes]
    refine exists_lookup_cons (fun id => ¬ Rebuild.Gone tree.replacements tree.rebuild id)
      (fun (tokens : List Token) noted => (Token.notes (tokens.filter keep)).Subperm noted)
      (fun part later => ?_) asMember others.asMembers
    have isId : part.1 ∈ rest.ids := by
      rw [← map_fst_parts]
      exact List.mem_map_of_mem later
    exact Nat.ne_of_gt (numbered.mem_ids isId).1

end Outline

namespace SyntaxTree

variable {tree : SyntaxTree}

/-- Every member of a converted class is taken over by its record or provided by it. -/
theorem mem_retained_or_elided {id member : NodeId} {replacement : Replacement} {decl : ClassDecl}
    (chosen : tree.replacements.lookup id = some replacement)
    (present : tree.class? id = some decl) (listed : member ∈ decl.members) :
    member ∈ replacement.partition.retained ∨ member ∈ tree.elidedMembers id := by
  obtain ⟨eligible, made⟩ := exists_eligible chosen present
  have judged := ((tree.lookup_replacements _ _).mp chosen).2
  cases provided : tree.provides eligible member with
  | true =>
      right
      rw [elidedMembers, judged]
      exact (made.elided member).mpr ⟨listed, provided⟩
  | false =>
      left
      rw [made.retained]
      exact List.mem_filter.mpr ⟨listed, by rw [provided]; rfl⟩

/-- A comment in the extent of a member that the record of a class provides is left out. -/
theorem omits_of_elided {id member : NodeId} (replaced : (tree.replacements.lookup id).isSome)
    (listed : member ∈ tree.elidedMembers id) {token : Token}
    (inside : (tree.extentOf member).containsSpan token.span = true) :
    tree.omits tree.convertUnit.reports token = true := by
  obtain ⟨report, isReport, rfl, components, elided, retained, outcome⟩ :=
    (tree.converts_iff id _).mpr ⟨replaced, rfl⟩
  refine List.any_eq_true.mpr ⟨report, isReport, ?_⟩
  rw [outcome, ClassOutcome.isConverted, Bool.true_and]
  exact List.any_eq_true.mpr ⟨member, listed, inside⟩

end SyntaxTree

namespace ParsedUnit

variable {source : Text} {tree : SyntaxTree} (unit : ParsedUnit source tree)

include unit

theorem not_gone_of_retained {id member : NodeId} {replacement : Replacement} {decl : ClassDecl}
    (chosen : tree.replacements.lookup id = some replacement)
    (present : tree.class? id = some decl) (listed : member ∈ replacement.partition.retained) :
    ¬ Rebuild.Gone tree.replacements tree.rebuild member := by
  obtain ⟨isMember, keeps⟩ :=
    unit.separate.retained id replacement decl chosen present member listed
  rintro ⟨holder, _, elides⟩
  -- a member has one class, so it is this record that would do without it
  have same := unit.separate.alone holder id decl member elides (by rw [chosen]; rfl) present
    isMember
  exact keeps (same ▸ elides)

/-- The new tree has the comments of a declaration that it does not do without. -/
theorem bears_image {id : NodeId} {trivia : Trivia} (known : (tree.node? id).isSome)
    (stays : ¬ Rebuild.Gone tree.replacements tree.rebuild id)
    (bears : Outline.Bears tree id trivia) :
    Outline.Bears tree.printing.tree (tree.printing.image id) trivia :=
  (unit.carried.kept id (SyntaxTree.lt_of_node?_isSome known) stays).trans bears

/-- The comments of the members of a converted class are written in its record, except those in the
extents of members that the record provides. -/
theorem members_subperm {id : NodeId} {replacement : Replacement} {decl : ClassDecl}
    {members : Outline} {tail : List Token} {indent : Text} {offset : Nat}
    (chosen : tree.replacements.lookup id = some replacement)
    (present : tree.class? id = some decl) (ids : decl.members = members.ids)
    (block : members.InBlock source tree tail indent offset)
    (inner : members.KeepsNotes tree fun token => !tree.omits tree.convertUnit.reports token) :
    (Token.notes (members.tokens.filter fun token =>
      !tree.omits tree.convertUnit.reports token)).Subperm
      (replacement.partition.retained.filterMap fun id =>
        List.lookup id (members.memberNotes tree.printing)).flatten := by
  have taken : List.Sublist replacement.partition.retained (members.parts.map Prod.fst) := by
    obtain ⟨resolved, eligible, read, _, partition, _⟩ :=
      SyntaxTree.replacement_of_class chosen present
    obtain ⟨same, _, _, _⟩ := SyntaxTree.resolveMembers_sound read
    rw [Outline.map_fst_parts, ← ids, ← same, partition]
    exact ClassView.retained_sublist ⟨id, decl, resolved⟩ eligible
  have distinct : (members.parts.map Prod.fst).Nodup := by
    obtain ⟨_, _, numbered⟩ := block.numbered
    rw [Outline.map_fst_parts]
    exact numbered.sorted.imp Nat.ne_of_lt
  have extents := block.stands.extents_parts block.plain block.tiles block.placed
  rw [← members.flatMap_snd_parts]
  refine Outline.notes_parts_subperm taken distinct ?_ ?_
  · intro part listed kept
    exact inner.asMembers part listed (unit.not_gone_of_retained chosen present kept)
  · intro part listed free
    have isMember : part.1 ∈ decl.members := by
      rw [ids, ← Outline.map_fst_parts]
      exact List.mem_map_of_mem listed
    have elided := (SyntaxTree.mem_retained_or_elided chosen present isMember).resolve_left free
    refine List.filter_eq_nil_iff.mpr fun token inside => ?_
    rw [SyntaxTree.omits_of_elided (by rw [chosen]; rfl) elided (extents part listed token inside)]
    decide

section

variable {tail : List Token} {indent : Text} {offset : Nat} {site : Site} {shape : ClassShape}
  {members rest : Outline} {keep : Token → Bool}

theorem keepsNotes_leaf {node : Node}
    (block : Outline.LeafInBlock source tree tail indent offset site node rest)
    (others : rest.KeepsNotes tree keep) : (Outline.leaf site node rest).KeepsNotes tree keep := by
  refine .cons block.later rfl rfl rfl rfl (Token.notes_sublist List.filter_sublist).subperm
    (fun stays => ?_) others
  obtain ⟨_, ready⟩ := block.ready
  have image := unit.bears_image (by rw [block.found]; rfl) stays block.bears
  refine image.member_subperm (List.append_nil _).symm rfl rfl block.tiles block.placed ready.lead
    ready.trail rfl ?_
  rw [Code.notes_run]
  exact (Token.notes_sublist List.filter_sublist).subperm

/-- The new tree has the comments of every class, of those that it replaces too. -/
theorem bears_class (block : Outline.ClassInBlock source tree tail indent offset site shape members
    rest) : Outline.Bears tree.printing.tree (tree.printing.image site.id)
      (shape.trivia (site.placed source) (members.stopFrom (Code.bodyStart shape))) := by
  obtain ⟨package, found⟩ := block.found
  exact unit.bears_image (by rw [found]; rfl)
    (unit.not_gone_of_class (SyntaxTree.class?_of_node? found)) block.bears

theorem keepsNotes_kept
    (block : Outline.ClassInBlock source tree tail indent offset site shape members rest)
    (kept : tree.printing.record? site.id = none) (inner : members.KeepsNotes tree keep)
    (others : rest.KeepsNotes tree keep) :
    (Outline.type site shape members rest).KeepsNotes tree keep := by
  obtain ⟨_, ready⟩ := block.ready
  refine .cons block.later rfl rfl (by rw [Outline.notes, kept]) (by rw [Outline.memberNotes, kept])
    ?_ (fun _ => ?_) others
  · rw [block.body.split, List.filter_append, List.filter_append, Token.notes_append,
      Token.notes_append, List.append_assoc]
    exact (Token.notes_sublist List.filter_sublist).subperm.append
      (inner.inPlace.append (Token.notes_sublist List.filter_sublist).subperm)
  · have tokens : site.tokens = site.lead ++ ((Code.bare (site.front shape)
        ++ Code.openingComments shape ++ (members.tokens
        ++ (members.dangling shape ++ [shape.closing.token]))) ++ site.trail) := by
      rw [block.body.split]
      simp
    refine (unit.bears_class block).member_subperm rfl rfl rfl block.tiles block.placed ready.lead
      ready.trail tokens ?_
    rw [Token.notes_append, Code.notes_run, ← Token.notes_append,
      List.filter_append (Code.bare (site.front shape) ++ Code.openingComments shape),
      List.filter_append members.tokens, Token.notes_append, Token.notes_append]
    exact (Token.notes_sublist List.filter_sublist).subperm.append
      (inner.inPlace.append (Token.notes_sublist List.filter_sublist).subperm)

theorem keepsNotes_converted {record : RecordDecl}
    (block : Outline.ClassInBlock source tree tail indent offset site shape members rest)
    (converted : tree.printing.record? site.id = some record)
    (inner : members.KeepsNotes tree fun token => !tree.omits tree.convertUnit.reports token)
    (others : rest.KeepsNotes tree fun token => !tree.omits tree.convertUnit.reports token) :
    (Outline.type site shape members rest).KeepsNotes tree fun token =>
      !tree.omits tree.convertUnit.reports token := by
  obtain ⟨package, found⟩ := block.found
  obtain ⟨layout⟩ := block.layout
  obtain ⟨after, chain⟩ := block.chain
  obtain ⟨_, ready⟩ := block.ready
  have present := SyntaxTree.class?_of_node? found
  obtain ⟨replacement, chosen, rfl⟩ := Option.map_eq_some_iff.mp converted
  obtain ⟨_, _, _, made⟩ := SyntaxTree.record_of_replacement chosen present
  have kept := unit.members_subperm chosen present rfl block.members inner
  have header : replacement.record.headerPrefix = shape.headerPrefix := by
    rw [made]
    rfl
  have retained : replacement.record.members = replacement.partition.retained := by rw [made]
  rw [← retained] at kept
  have whole := (unit.bears_class block).record_subperm layout block.body block.bound chain header
    ready.lead ready.trail kept
  exact .cons block.later rfl rfl (by rw [Outline.notes, converted])
    (by rw [Outline.memberNotes, converted]) whole (fun _ => whole) others

end

/-- The comments of declarations are written, except those in the extents of members that records
provide by themselves. -/
theorem keepsNotes {tail : List Token} {indent : Text} {offset : Nat} {outline : Outline}
    (block : outline.InBlock source tree tail indent offset) :
    outline.KeepsNotes tree fun token => !tree.omits tree.convertUnit.reports token := by
  induction outline generalizing tail indent offset with
  | nil => exact ⟨List.nil_subperm, fun part listed => absurd listed List.not_mem_nil⟩
  | leaf site node rest ih => exact unit.keepsNotes_leaf block.leaf (ih block.leaf.rest)
  | type site shape members rest ihMembers ihRest =>
      have inner := ihMembers block.class.members
      have others := ihRest block.class.rest
      cases converted : tree.printing.record? site.id with
      | none => exact unit.keepsNotes_kept block.class converted inner others
      | some record => exact unit.keepsNotes_converted block.class converted inner others

/-- The comments of a converted source are those of the source, but for those that are left out. -/
theorem notes_subperm : (Token.notes (unit.tokens.filter fun token =>
      !tree.omits tree.convertUnit.reports token)).Subperm
    (unit.outline.notes tree.printing ++ Token.notes (Code.commentsFrom (unit.outline.stopFrom 0)
      (Code.ofTokens unit.tokens).tail)) := by
  have inner := unit.keepsNotes unit.inBlock
  nth_rewrite 1 [unit.joined]
  rw [List.filter_append, Token.notes_append]
  exact inner.inPlace.append (Token.notes_sublist List.filter_sublist).subperm

end ParsedUnit

/-- A converted source has the comments of its source as often as the source has them, up to blank
text at their ends, and leaving out those in the extents of members that records provide by
themselves. -/
theorem comments_convertSource {source : Text} {conversion : SourceConversion}
    (converts : convertSource source = .ok conversion) :
    ∃ tree tokens output, parse source = .ok tree ∧ lex source = .ok tokens ∧
      lex conversion.output = .ok output ∧
      (Token.notes (tokens.filter fun token =>
        !tree.omits conversion.reports token)).Subperm (Token.notes output) := by
  obtain ⟨tree, unit, parsed, rfl⟩ := ParsedUnit.exists_of_convertSource converts
  refine ⟨tree, unit.tokens, _, parsed, unit.lex_source, unit.lex_converted, ?_⟩
  rw [lexAll, unit.tells_convertUnit.notes_lexFrom 0]
  exact unit.notes_subperm

theorem commentedPoint_comments_convertSource :
    ∃ tree conversion tokens output, parse commentedPoint = .ok tree ∧ tree.isEligible 3 = true ∧
      convertSource commentedPoint = .ok conversion ∧ lex commentedPoint = .ok tokens ∧
      lex conversion.output = .ok output ∧
      (Token.notes (tokens.filter fun token =>
        !tree.omits conversion.reports token)).Subperm (Token.notes output) := by
  obtain ⟨tree, parsed, eligible⟩ := exists_commentedPoint
  have converts := convertSource_eq_ok_iff.mpr ⟨tree, parsed, rfl⟩
  obtain ⟨_, tokens, output, again, lexed, read, notes⟩ := comments_convertSource converts
  cases parsed.symm.trans again
  exact ⟨tree, _, tokens, output, parsed, eligible, converts, lexed, read, notes⟩

end JavaRecords
