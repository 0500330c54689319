import JavaRecords.Proofs.Print.Header
import JavaRecords.Proofs.Print.Printed

set_option autoImplicit false

namespace JavaRecords

namespace Code

theorem chain_run_bare {code : List CodeToken} {tail : Text}
    (chain : Token.Chain (bare code) tail) :
    Token.Chain (run code) tail := by
  cases code with
  | nil => trivial
  | cons first rest => exact ⟨Text.blank_nil, chain.2⟩

/-- The words of a run with comments around it. -/
theorem fits_bare {lead trail : List Token} {code : List CodeToken}
    (comments : ∀ comment ∈ lead, comment.isComment = true) (bound : Bound code)
    (trailing : ∀ comment ∈ trail, comment.isComment = true) :
    List.Forall₂ Word.Fits (Word.found [] (lead ++ (bare code ++ trail))) (words code) := by
  cases code with
  | nil =>
      have all : ∀ comment ∈ lead ++ (bare [] ++ trail), comment.isComment = true := by
        intro comment listed
        rcases List.mem_append.mp listed with early | later
        · exact comments comment early
        · exact trailing comment later
      rw [Token.found_of_all all]
      exact .nil
  | cons first rest =>
      obtain ⟨here, later⟩ := Bound.cons.mp bound
      rw [CodeToken.found_of_comments comments, bare, List.cons_append, Word.found,
        if_neg (by simpa using here.token), Word.found_append, found_flat later,
        Token.found_of_all trailing, List.append_nil]
      refine .cons ⟨rfl, rfl, fun _ asked => by cases asked⟩ ?_
      exact List.forall₂_same.mpr fun word _ => Word.Fits.refl word

/-- The words of a run with comments after it. -/
theorem fits_run {trail : List Token} {code : List CodeToken} (bound : Bound code)
    (trailing : ∀ comment ∈ trail, comment.isComment = true) :
    List.Forall₂ Word.Fits (Word.found [] (run code ++ trail)) (words code) := by
  rw [Word.found_append, Token.found_of_all trailing, List.append_nil]
  exact fits_words_run bound

/-- The words of a closing brace with comments around it. -/
theorem fits_closing {lead trail : List Token} {closing : CodeToken}
    (comments : ∀ comment ∈ lead, comment.isComment = true) (isBrace : closing.isPunct '}' = true)
    (trailing : ∀ comment ∈ trail, comment.isComment = true) :
    List.Forall₂ Word.Fits (Word.found [] (lead ++ closing.token :: trail)) [Word.mark '}'] := by
  obtain ⟨kind, text⟩ := ClassLayout.isPunct_text isBrace
  have code : ¬ closing.token.isComment = true := by
    simp [Token.isComment, kind, TokenKind.isComment]
  rw [CodeToken.found_of_comments comments, Word.found, if_neg code, Token.found_of_all trailing]
  exact .cons ⟨kind, text, fun _ asked => by cases asked⟩ .nil

theorem chain_closing {before : List Token} {closing : CodeToken} {tail : Text}
    (chain : Token.Chain (before ++ [closing.token]) tail) (isBrace : closing.isPunct '}' = true)
    (other : Text) : Token.Chain (before ++ [closing.token]) other := by
  obtain ⟨kind, text⟩ := ClassLayout.isPunct_text isBrace
  apply chain.swap
  intro token isLast
  rw [List.getLast?_concat, Option.some.injEq] at isLast
  subst isLast
  rw [kind, show closing.token.text = _ from text]
  exact Token.readsAs_mark (by decide) other

end Code

theorem SyntaxTree.blank_memberIndent : memberIndent.Blank := by
  intro c listed
  simp only [memberIndent, List.mem_cons, List.not_mem_nil, or_false, or_self] at listed
  rw [listed]
  decide

/-- A member of a record adds words and notes in front of a line terminator. -/
structure MemberTells (newline text : Text) (part : List Word × List Text) : Prop where
  head : Word.Headless part.1
  append : ∀ more others notes, Word.Headless others → Tells (newline ++ more) others notes →
    Tells (text ++ (newline ++ more)) (part.1 ++ others) (part.2 ++ notes)

/-- The members of a record, in front of a line terminator. -/
theorem Tells.lines_append {newline : Text} (isNewline : newline.IsNewline) {texts : List Text}
    {parts : List (List Word × List Text)} (each : List.Forall₂ (MemberTells newline) texts parts)
    {more : Text} {others : List Word} {notes : List Text} (head : Word.Headless others)
    (tells : Tells (newline ++ more) others notes) :
    ∃ text, Printing.lines newline texts ++ (newline ++ more) = newline ++ text ∧
      Tells (newline ++ text) ((parts.map Prod.fst).flatten ++ others)
        ((parts.map Prod.snd).flatten ++ notes) ∧
      Word.Headless ((parts.map Prod.fst).flatten ++ others) := by
  induction each with
  | nil => exact ⟨more, rfl, tells, head⟩
  | @cons text part texts parts own later ih =>
      obtain ⟨rest, joined, told, headRest⟩ := ih
      have headAll : Word.Headless (((part :: parts).map Prod.fst).flatten ++ others) := by
        rw [List.map_cons, List.flatten_cons, List.append_assoc]
        exact own.head.append headRest
      cases texts with
      | nil =>
          cases later
          refine ⟨text ++ (newline ++ more), by simp [Printing.lines], ?_, headAll⟩
          refine .blank_append isNewline.blank headAll ?_
          simpa using own.append more others notes head tells
      | cons next texts =>
          have broken := Tells.blank_append isNewline.blank headRest told
          have here := own.append (newline ++ rest) _ _ headRest broken
          refine ⟨text ++ (newline ++ (newline ++ rest)), ?_, ?_, headAll⟩
          · rw [Printing.lines, List.append_assoc, joined]
            · simp only [List.append_assoc]
            · simp
          · rw [List.map_cons, List.map_cons, List.flatten_cons, List.flatten_cons,
              List.append_assoc, List.append_assoc] at *
            exact .blank_append isNewline.blank headAll here

namespace Site

theorem spell_ne_nil {site : Site} {tail : Text} (chain : Token.Chain site.tokens tail) :
    Token.spell site.tokens ≠ [] := by
  refine Token.spell_ne_nil chain ?_
  simp [tokens, Code.bare, Piece.tokens]

theorem Tiles.stop_pos {offset : Nat} {site : Site} {tail : Text} (tiles : site.Tiles offset)
    (chain : Token.Chain site.tokens tail) : 0 < site.stop := by
  have filled := Text.byteSize_pos_of_ne_nil _ (spell_ne_nil chain)
  rw [tiles.stop]
  omega

end Site

namespace Printing

def recordNotes (job : Printing) (id : NodeId) (record : RecordDecl) (members : List Text) :
    List Text :=
  let trivia := job.tree.trivia
  (trivia.leading (job.image id)).map Comment.note ++ (record.headerNotes ++ (members ++
    ((trivia.dangling (job.image id)).map Comment.note ++
      (trivia.trailing (job.image id)).map Comment.note)))

def memberNotes (job : Printing) (id : NodeId) (source : Excerpt) (inner : List Text) : List Text :=
  let leading := (job.tree.trivia.leading (job.image id)).filter fun comment =>
    comment.span.stop ≤ source.range.start
  leading.map Comment.note ++ (inner ++ (job.tree.trivia.trailing (job.image id)).map Comment.note)

end Printing

namespace Outline

def classWords (job : Printing) (site : Site) (shape : ClassShape)
    (members : List (NodeId × List Word)) : List Word :=
  match job.record? site.id with
  | some record => record.headerWords ++
      ((record.members.filterMap fun id => List.lookup id members).flatten ++ [Word.mark '}'])
  | none => Code.words (site.front shape) ++ (members.flatMap Prod.snd ++ [Word.mark '}'])

/-- The words of each declaration after a conversion. -/
def entries (job : Printing) : Outline → List (NodeId × List Word)
  | nil => []
  | leaf site _ rest => (site.id, Code.words site.piece.tokens) :: rest.entries job
  | type site shape members rest =>
      (site.id, classWords job site shape (members.entries job)) :: rest.entries job

/-- The words of the declarations after a conversion. -/
def words (job : Printing) (outline : Outline) : List Word :=
  (outline.entries job).flatMap Prod.snd

mutual

/-- The notes of the declarations after a conversion. -/
def notes (job : Printing) : Outline → List Text
  | nil => []
  | leaf site _ rest => Token.notes site.tokens ++ notes job rest
  | type site shape members rest =>
      (match job.record? site.id with
        | some record => job.recordNotes site.id record
            (record.members.filterMap fun id => List.lookup id (memberNotes job members)).flatten
        | none =>
            Token.notes (site.lead ++ Code.bare (site.front shape) ++ Code.openingComments shape)
              ++ (notes job members
                ++ Token.notes (members.dangling shape ++ shape.closing.token :: site.trail)))
        ++ notes job rest

def memberNotes (job : Printing) : Outline → List (NodeId × List Text)
  | nil => []
  | leaf site _ rest =>
      (site.id, job.memberNotes site.id (site.placed job.tree.source).source
        (Token.notes (Code.run site.piece.tokens))) :: memberNotes job rest
  | type site shape members rest =>
      (site.id, match job.record? site.id with
        | some record => job.recordNotes site.id record
            (record.members.filterMap fun id => List.lookup id (memberNotes job members)).flatten
        | none => job.memberNotes site.id (site.placed job.tree.source).source
            (Token.notes (Code.run (site.front shape) ++ Code.openingComments shape)
              ++ (notes job members
                ++ Token.notes (members.dangling shape ++ [shape.closing.token]))))
        :: memberNotes job rest

end

/-- What is needed to print a declaration: its comments were read from the source, those after it
stand on its line, and it is indented by blank text. -/
structure SiteReady (job : Printing) (site : Site) (trivia : Trivia) : Prop where
  bound : Code.Bound site.piece.tokens
  commented : Commented job.tree (job.image site.id) trivia
  indent : (site.placed job.tree.source).source.indent.Blank
  following : ∀ comment ∈ site.following, comment.isComment = true
  leading : ∀ comment ∈ trivia.leading, comment.Readable
  dangling : ∀ comment ∈ trivia.dangling, comment.Readable
  trailing : trivia.trailing = site.trail.map Comment.ofToken

/-- The declarations can be printed. -/
def Ready (job : Printing) : Outline → Prop
  | nil => True
  | leaf site _ rest => (∃ trivia, SiteReady job site trivia) ∧ rest.Ready job
  | type site shape members rest =>
      (∃ trivia, SiteReady job site trivia) ∧ shape.closing.isPunct '}' = true ∧
      (∀ record, job.record? site.id = some record → record.Clean) ∧
      members.Ready job ∧ rest.Ready job

variable {job : Printing}

theorem SiteReady.lead {site : Site} {trivia : Trivia} (ready : SiteReady job site trivia) :
    ∀ comment ∈ site.lead, comment.isComment = true :=
  fun comment listed => (ready.bound _ List.mem_cons_self).comments comment
    (List.mem_filter.mp listed).1

theorem SiteReady.trail {site : Site} {trivia : Trivia} (ready : SiteReady job site trivia) :
    ∀ comment ∈ site.trail, comment.isComment = true :=
  fun comment listed => ready.following comment ((Code.sameLine_prefix _).subset listed)

theorem Commented.leading_readable {tree : SyntaxTree} {id : NodeId} {trivia : Trivia}
    (commented : Commented tree id trivia)
    (readable : ∀ comment ∈ trivia.leading, comment.Readable) :
    ∀ comment ∈ tree.trivia.leading id, comment.Readable := by
  unfold TriviaTable.leading
  cases found : tree.trivia.get? id with
  | none => exact fun _ listed => absurd listed List.not_mem_nil
  | some stored =>
      rw [commented stored found]
      exact readable

theorem Commented.dangling_readable {tree : SyntaxTree} {id : NodeId} {trivia : Trivia}
    (commented : Commented tree id trivia)
    (readable : ∀ comment ∈ trivia.dangling, comment.Readable) :
    ∀ comment ∈ tree.trivia.dangling id, comment.Readable := by
  unfold TriviaTable.dangling
  cases found : tree.trivia.get? id with
  | none => exact fun _ listed => absurd listed List.not_mem_nil
  | some stored =>
      rw [commented stored found]
      exact readable

/-- The comments after a declaration, in front of what can stand after them. -/
theorem SiteReady.trailing_append {site : Site} {trivia : Trivia}
    (ready : SiteReady job site trivia) {rest text : Text} {others : List Word} {notes : List Text}
    (chain : Token.Chain site.trail rest) (follows : text.Follows rest)
    (head : Word.Headless others) (tells : Tells text others notes) :
    Tells (SyntaxTree.commentTail (job.tree.trivia.trailing (job.image site.id)) ++ text)
      others ((job.tree.trivia.trailing (job.image site.id)).map Comment.note ++ notes) := by
  unfold TriviaTable.trailing
  cases found : job.tree.trivia.get? (job.image site.id) with
  | none => exact tells
  | some stored =>
      rw [ready.commented stored found, Option.map_some, Option.getD_some, ready.trailing,
        Comment.map_note_ofToken ready.trail]
      exact .commentTail_append ready.following chain follows head tells

theorem loose_commentTail (comments : List Comment) {text : Text} (loose : Token.Loose text) :
    Token.Loose (SyntaxTree.commentTail comments ++ text) := by
  cases comments with
  | nil => exact loose
  | cons comment rest => exact Tells.loose_space _

/-- A record with its comments and members, in front of what can stand after them. -/
theorem SiteReady.record_append {site : Site} {trivia : Trivia}
    (ready : SiteReady job site trivia) {record : RecordDecl} (clean : record.Clean)
    {texts : List Text} {parts : List (List Word × List Text)}
    (each : List.Forall₂ (MemberTells job.newline) texts parts) {rest text : Text}
    {others : List Word} {notes : List Text}
    (chain : Token.Chain site.trail rest) (follows : text.Follows rest)
    (head : Word.Headless others) (tells : Tells text others notes) :
    Tells (job.record site.id record texts ++ text)
      (record.headerWords ++ ((parts.map Prod.fst).flatten ++ Word.mark '}' :: others))
      (job.recordNotes site.id record (parts.map Prod.snd).flatten ++ notes) := by
  have isNewline : job.newline.IsNewline := Text.isNewline_lineEnding _
  have tail := ready.trailing_append chain follows head tells
  have closed := Tells.mark_append (c := '}') (by decide) head tail
  have headClosed := Word.headless_mark '}' others
  have broken := Tells.blank_append isNewline.blank headClosed
    (Tells.blank_append clean.indent headClosed closed)
  have indented := clean.indent.append SyntaxTree.blank_memberIndent
  obtain ⟨below, joinedBelow, toldBelow⟩ := Tells.dangling_append
    (ready.commented.dangling_readable ready.dangling) indented isNewline headClosed broken
  obtain ⟨inside, joinedInside, toldInside, headInside⟩ :=
    Tells.lines_append isNewline each headClosed toldBelow
  have headed := Tells.recordHeader_append clean headInside toldInside
  have headHeaded : Word.Headless
      (record.headerWords ++ ((parts.map Prod.fst).flatten ++ Word.mark '}' :: others)) := by
    rw [RecordDecl.headerWords, List.append_assoc]
    exact (Text.headless_words _).append (Word.headless_name _ _)
  have whole := Tells.commentLines_append
    (ready.commented.leading_readable ready.leading) clean.indent isNewline headHeaded headed
  rw [← joinedInside, ← joinedBelow] at whole
  unfold Printing.record Printing.recordNotes
  simpa only [List.append_assoc, List.cons_append, List.nil_append] using whole

/-- A member with its comments, in front of a line terminator. -/
theorem SiteReady.member_append {site : Site} {trivia : Trivia}
    (ready : SiteReady job site trivia) {indent text : Text} (blank : indent.Blank)
    {part : List Word} {inner : List Text} (headPart : Word.Headless part)
    (own : ∀ more others notes, Token.Loose more → Word.Headless others →
      Tells more others notes → Tells (text ++ more) (part ++ others) (inner ++ notes))
    {rest : Text} (chain : Token.Chain site.trail rest) :
    MemberTells job.newline
      (job.member indent site.id (site.placed job.tree.source).source text)
      (part, job.memberNotes site.id (site.placed job.tree.source).source inner) := by
  refine ⟨headPart, ?_⟩
  intro more others notes head tells
  have isNewline : job.newline.IsNewline := Text.isNewline_lineEnding _
  have tail := ready.trailing_append chain (.newline isNewline more rest) head tells
  have here := own _ _ _ (loose_commentTail _ (isNewline.loose more)) head tail
  have headAll := headPart.append head
  have chosen : (if (site.placed job.tree.source).source.indent.isEmpty then indent
      else (site.placed job.tree.source).source.indent).Blank := by
    split
    · exact blank
    · exact ready.indent
  have readable : ∀ comment ∈ (job.tree.trivia.leading (job.image site.id)).filter (fun comment =>
      comment.span.stop ≤ (site.placed job.tree.source).source.range.start), comment.Readable := by
    intro comment listed
    exact ready.commented.leading_readable ready.leading comment (List.mem_filter.mp listed).1
  have whole := Tells.commentLines_append readable chosen isNewline headAll
    (Tells.blank_append chosen headAll here)
  unfold Printing.member Printing.memberNotes
  simpa only [List.append_assoc] using whole

theorem headless_flatMap_snd {entries : List (NodeId × List Word)}
    (heads : ∀ entry ∈ entries, Word.Headless entry.2) :
    Word.Headless (entries.flatMap Prod.snd) := by
  induction entries with
  | nil => exact Word.headless_nil
  | cons entry entries ih =>
      exact (heads entry List.mem_cons_self).append
        (ih fun other listed => heads other (List.mem_cons_of_mem _ listed))

theorem headless_entries {outline : Outline} :
    ∀ entry ∈ outline.entries job, Word.Headless entry.2 := by
  induction outline with
  | nil => exact fun entry listed => absurd listed List.not_mem_nil
  | leaf site node rest ih =>
      intro entry listed
      rcases List.mem_cons.mp listed with rfl | later
      · exact Code.headless_words site.piece.tokens
      · exact ih entry later
  | type site shape members rest ihMembers ihRest =>
      intro entry listed
      rcases List.mem_cons.mp listed with rfl | later
      · dsimp only [classWords]
        split
        · rw [RecordDecl.headerWords, List.append_assoc]
          exact (Text.headless_words _).append (Word.headless_name _ _)
        · exact (Code.headless_words _).append
            ((headless_flatMap_snd ihMembers).append (Word.headless_mark _ _))
      · exact ihRest entry later

theorem headless_words {outline : Outline} : Word.Headless (outline.words job) :=
  headless_flatMap_snd headless_entries

/-- What is printed in the place of declarations that do not start the source can stand where they
stood. -/
theorem follows_printed {outline : Outline} {offset : Nat} {text after : Text}
    (positive : 0 < offset) (tiles : outline.Tiles offset) (rebuilt : outline.Rebuilt job)
    (chain : Token.Chain outline.tokens after) (follows : text.Follows after) :
    (outline.printed job ++ text).Follows (Token.spell outline.tokens ++ after) := by
  cases outline with
  | nil => exact follows
  | leaf site node rest =>
      have filled := Site.spell_ne_nil (Token.chain_append.mp chain).1
      rw [printed, tokens, Token.spell_append, List.append_assoc, List.append_assoc]
      exact .append filled _ _
  | type site shape members rest =>
      obtain ⟨own, body, _, _⟩ := tiles
      rw [tokens, body.split] at chain ⊢
      cases converted : job.record? site.id with
      | some record =>
          simp only [Rebuilt, converted] at rebuilt
          have start : record.extent.start > 0 := by
            rw [rebuilt.1.2.1, own.cursor]
            exact positive
          simp only [printed, converted, Printing.separator, if_pos start, List.append_assoc]
          exact .newline (Text.isNewline_lineEnding _) _ _
      | none =>
          have front : Token.spell (site.lead ++ Code.bare (site.front shape)
              ++ Code.openingComments shape) ≠ [] := by
            refine Token.spell_ne_nil (Token.chain_append.mp (Token.chain_append.mp
              (Token.chain_append.mp chain).1).1).1 ?_
            intro empty
            simp only [List.append_assoc, List.append_eq_nil_iff] at empty
            cases split : site.front shape with
            | nil => exact body.front split
            | cons first others =>
                rw [split] at empty
                cases empty.2.1
          simp only [printed, converted]
          simpa only [Token.spell_append, List.append_assoc] using
            Text.Follows.append front (members.printed job ++ (Token.spell (members.dangling shape
              ++ shape.closing.token :: site.trail) ++ (rest.printed job ++ text)))
              (Token.spell (members.tokens ++ (members.dangling shape ++
                (shape.closing.token :: site.trail ++ rest.tokens))) ++ after)

/-- The declarations have their words and notes one by one as members of a record. -/
def MembersTold (job : Printing) (indent : Text) (outline : Outline) : Prop :=
  ∀ id ∈ outline.ids, ∃ text part, List.lookup id (outline.memberTexts job indent) = some text ∧
    List.lookup id (outline.entries job) = some part.1 ∧
    List.lookup id (outline.memberNotes job) = some part.2 ∧ MemberTells job.newline text part

theorem MembersTold.cons {outline rest : Outline} {own : NodeId} {indent text : Text}
    {part : List Word} {noted : List Text} (ids : outline.ids = own :: rest.ids)
    (texts : outline.memberTexts job indent = (own, text) :: rest.memberTexts job indent)
    (entries : outline.entries job = (own, part) :: rest.entries job)
    (notes : outline.memberNotes job = (own, noted) :: rest.memberNotes job)
    (here : MemberTells job.newline text (part, noted)) (others : rest.MembersTold job indent) :
    outline.MembersTold job indent := by
  intro id listed
  rw [texts, entries, notes]
  by_cases same : id = own
  · subst same
    exact ⟨text, (part, noted), List.lookup_cons_self, List.lookup_cons_self,
      List.lookup_cons_self, here⟩
  · rw [ids] at listed
    obtain ⟨found, told, inTexts, inEntries, inNotes, tells⟩ :=
      others id (List.mem_of_ne_of_mem same listed)
    simp only [List.lookup_cons, beq_false_of_ne same]
    exact ⟨found, told, inTexts, inEntries, inNotes, tells⟩

/-- The members that a record keeps. -/
theorem MembersTold.kept {members : Outline} {indent : Text}
    (told : members.MembersTold job indent) {ids : List NodeId}
    (inside : ∀ id ∈ ids, id ∈ members.ids) :
    ∃ parts, List.Forall₂ (MemberTells job.newline)
        (ids.filterMap fun id => List.lookup id (members.memberTexts job indent)) parts ∧
      parts.map Prod.fst = (ids.filterMap fun id => List.lookup id (members.entries job)) ∧
      parts.map Prod.snd = ids.filterMap fun id => List.lookup id (members.memberNotes job) := by
  induction ids with
  | nil => exact ⟨[], .nil, rfl, rfl⟩
  | cons id ids ih =>
      obtain ⟨text, part, inTexts, inEntries, inNotes, tells⟩ :=
        told id (inside id List.mem_cons_self)
      obtain ⟨parts, each, words, notes⟩ :=
        ih fun other listed => inside other (List.mem_cons_of_mem _ listed)
      simp only [List.filterMap_cons, inTexts, inEntries, inNotes]
      exact ⟨part :: parts, .cons tells
        each, by rw [List.map_cons, words], by rw [List.map_cons, notes]⟩

/-- The declarations as they are printed have their words and notes: in the place of their source,
and one by one as members of a record. -/
structure Told (job : Printing) (after : Text) (outline : Outline) : Prop where
  inPlace : ∀ text others notes, text.Follows after → Word.Headless others →
    Tells text others notes →
    Tells (outline.printed job ++ text) (outline.words job ++ others) (outline.notes job ++ notes)
  asMembers : ∀ indent : Text, indent.Blank → outline.MembersTold job indent

theorem Told.leaf {site : Site} {node : Node} {rest : Outline} {trivia : Trivia} {after : Text}
    (ready : SiteReady job site trivia) (chain : Token.Chain (site.tokens ++ rest.tokens) after)
    (follows : ∀ text, Text.Follows text after →
      (rest.printed job ++ text).Follows (Token.spell rest.tokens ++ after))
    (others : rest.Told job after) : Told job after (.leaf site node rest) := by
  have own := (Token.chain_append.mp chain).1
  refine ⟨?_, ?_⟩
  · intro text words notes isNext head tells
    have later := others.inPlace text words notes isNext head tells
    have fits := Code.fits_bare ready.lead ready.bound ready.trail
    rw [printed, Outline.words, entries, Outline.notes, List.flatMap_cons, List.append_assoc,
      List.append_assoc, List.append_assoc]
    exact .chain_append_follows own fits (follows text isNext) (headless_words.append head) later
  · intro indent blank
    refine .cons rfl rfl rfl rfl ?_ (others.asMembers indent blank)
    rw [Site.tokens, Token.chain_append, Token.chain_append] at own
    have alone := Code.chain_run_bare own.2.1
    refine ready.member_append blank (Code.headless_words _) ?_ own.2.2
    intro more words notes loose head tells
    rw [Piece.text, ← Code.spell_run]
    exact .chain_append (Code.chain_run_of_loose alone ready.bound loose)
      (Code.fits_words_run ready.bound) head tells

theorem Told.converted {site : Site} {shape : ClassShape} {members rest : Outline}
    {trivia : Trivia} {record : RecordDecl} {after : Text} (ready : SiteReady job site trivia)
    (converted : job.record? site.id = some record) (clean : record.Clean)
    (kept : ∀ member ∈ record.members, member ∈ members.ids)
    (chain : Token.Chain (site.tokens ++ rest.tokens) after)
    (follows : ∀ text, Text.Follows text after →
      (rest.printed job ++ text).Follows (Token.spell rest.tokens ++ after))
    (inner : ∀ indent : Text, indent.Blank → members.MembersTold job indent)
    (others : rest.Told job after) : Told job after (.type site shape members rest) := by
  obtain ⟨parts, each, partWords, partNotes⟩ :=
    (inner _ (clean.indent.append SyntaxTree.blank_memberIndent)).kept kept
  have own := (Token.chain_append.mp chain).1
  rw [Site.tokens, Token.chain_append, Token.chain_append] at own
  refine ⟨?_, ?_⟩
  · intro text words notes isNext head tells
    have later := others.inPlace text words notes isNext head tells
    have here := ready.record_append clean each own.2.2 (follows text isNext)
      (headless_words.append head) later
    rw [partWords, partNotes] at here
    have separated : (job.separator record).Blank := by
      unfold Printing.separator
      split
      · exact (Text.isNewline_lineEnding _).blank
      · exact Text.blank_nil
    have headAll : Word.Headless (Outline.words job (.type site shape members rest) ++ words) :=
      headless_words.append head
    simp only [printed, Outline.words, entries, classWords, Outline.notes, converted,
      List.flatMap_cons, List.append_assoc, List.cons_append, List.nil_append] at headAll ⊢
    exact .blank_append separated headAll here
  · intro indent blank
    refine .cons rfl rfl rfl rfl ?_ (others.asMembers indent blank)
    have heads : ∀ entry ∈ Outline.entries job (.type site shape members rest),
        Word.Headless entry.2 := headless_entries
    have head := heads _ List.mem_cons_self
    simp only [classWords, converted] at head ⊢
    refine ⟨head, ?_⟩
    intro more words notes headMore tells
    have isNewline : job.newline.IsNewline := Text.isNewline_lineEnding _
    have here := ready.record_append clean each own.2.2 (.newline isNewline more _) headMore tells
    rw [partWords, partNotes] at here
    simpa only [List.append_assoc, List.cons_append, List.nil_append] using here

/-- The members of a class that stays, with the tokens around them. -/
theorem Told.body {members : Outline} {offset : Nat}
    {front : List Token} {part others : List Word} {notes : List Text} {after text : Text}
    (fits : List.Forall₂ Word.Fits (Word.found [] front) part) (positive : 0 < offset)
    (tiles : members.Tiles offset) (rebuilt : members.Rebuilt job)
    (chain : Token.Chain (front ++ members.tokens) after) (follows : text.Follows after)
    (inner : members.Told job after) (head : Word.Headless others)
    (tells : Tells text others notes) :
    Tells (Token.spell front ++ (members.printed job ++ text))
      (part ++ (members.words job ++ others))
      (Token.notes front ++ (members.notes job ++ notes)) := by
  obtain ⟨chainFront, chainMembers⟩ := Token.chain_append.mp chain
  have inside := inner.inPlace text others notes follows head tells
  exact .chain_append_follows chainFront fits
    (follows_printed positive tiles rebuilt chainMembers follows)
    (headless_words.append head) inside

theorem BodyTiles.bound {offset : Nat} {site : Site} {shape : ClassShape} {members : Outline}
    (body : BodyTiles offset site shape members) (bound : Code.Bound site.piece.tokens) :
    Code.Bound (site.front shape) ∧
      (∀ comment ∈ Code.openingComments shape, comment.isComment = true) ∧
      ∀ comment ∈ members.dangling shape, comment.isComment = true := by
  rw [body.tokens, Code.Bound.append] at bound
  obtain ⟨front, inside⟩ := bound
  refine ⟨front, ?_, ?_⟩
  · intro comment listed
    have early := (Code.sameLine_prefix _).subset listed
    cases split : shape.inside ++ [shape.closing] with
    | nil => simp at split
    | cons first others =>
        rw [split] at early inside
        exact (inside first List.mem_cons_self).comments comment early
  · intro comment listed
    have isLast : shape.closing ∈ shape.inside ++ [shape.closing] := by simp
    exact (inside _ isLast).comments comment (List.mem_filter.mp listed).1

theorem BodyTiles.start_pos {offset : Nat} {site : Site} {shape : ClassShape} {members : Outline}
    (body : BodyTiles offset site shape members) {tail : Text}
    (chain : Token.Chain (Code.bare (site.front shape)) tail) : 0 < Code.bodyStart shape := by
  have filled : 0 < Text.byteSize (Token.spell (Code.bare (site.front shape))) := by
    refine Text.byteSize_pos_of_ne_nil _ (Token.spell_ne_nil chain ?_)
    cases split : site.front shape with
    | nil => exact absurd split body.front
    | cons first rest => exact List.cons_ne_nil _ _
  have start := body.start
  omega

theorem Told.unconverted {site : Site} {shape : ClassShape} {members rest : Outline} {offset : Nat}
    {trivia : Trivia} {after : Text} (ready : SiteReady job site trivia)
    (stays : job.record? site.id = none) (isBrace : shape.closing.isPunct '}' = true)
    (body : BodyTiles offset site shape members) (tiles : members.Tiles (Code.bodyStart shape))
    (rebuilt : members.Rebuilt job) (chain : Token.Chain (site.tokens ++ rest.tokens) after)
    (follows : ∀ text, Text.Follows text after →
      (rest.printed job ++ text).Follows (Token.spell rest.tokens ++ after))
    (inner : ∀ after, Token.Chain members.tokens after → members.Told job after)
    (others : rest.Told job after) : Told job after (.type site shape members rest) := by
  obtain ⟨boundFront, opening, dangling⟩ := body.bound ready.bound
  have own := (Token.chain_append.mp chain).1
  have trailed := own
  rw [Site.tokens, Token.chain_append, Token.chain_append] at trailed
  rw [body.split, Token.chain_append] at own
  obtain ⟨inside, closed⟩ := own
  obtain ⟨front, chainMembers⟩ := Token.chain_append.mp inside
  obtain ⟨⟨lead, bare⟩, chainOpening⟩ :=
    (Token.chain_append.mp front).imp_left Token.chain_append.mp
  have positive := body.start_pos bare
  have inner := inner _ chainMembers
  refine ⟨?_, ?_⟩
  · intro text words notes isNext head tells
    have later := others.inPlace text words notes isNext head tells
    have fitsEnd := Code.fits_closing dangling isBrace ready.trail
    have ending := Tells.chain_append_follows closed fitsEnd (follows text isNext)
      (headless_words.append head) later
    have filled : Token.spell (members.dangling shape ++ shape.closing.token :: site.trail) ≠ [] :=
      Token.spell_ne_nil closed (by simp)
    have fits := Code.fits_bare ready.lead boundFront opening
    rw [← List.append_assoc] at fits
    have headEnd : Word.Headless ([Word.mark '}'] ++ (rest.words job ++ words)) :=
      Word.headless_mark _ _
    have whole := Told.body fits positive tiles rebuilt inside (.append filled _ _) inner headEnd
      ending
    simpa only [printed, Outline.words, entries, classWords, Outline.notes, stays,
      List.flatMap_cons, List.append_assoc] using whole
  · intro indent blank
    refine .cons rfl rfl rfl rfl ?_ (others.asMembers indent blank)
    simp only [classWords, stays]
    have headPart : Word.Headless (Code.words (site.front shape) ++
        ((members.entries job).flatMap Prod.snd ++ [Word.mark '}'])) :=
      (Code.headless_words _).append (headless_words.append (Word.headless_mark _ _))
    refine ready.member_append blank headPart ?_ trailed.2.2
    intro more words notes loose head tells
    have split : members.dangling shape ++ shape.closing.token :: site.trail =
        members.dangling shape ++ [shape.closing.token] ++ site.trail := by simp
    rw [split, Token.spell_append, List.append_assoc] at inside inner
    rw [split, Token.chain_append] at closed
    have ended := Code.chain_closing closed.1 isBrace more
    have filled : Token.spell (members.dangling shape ++ [shape.closing.token]) ≠ [] :=
      Token.spell_ne_nil ended (by simp)
    have fitsEnd := Code.fits_closing dangling isBrace fun comment listed =>
      absurd listed List.not_mem_nil
    have ending := Tells.chain_append ended fitsEnd head tells
    have fits := Code.fits_run boundFront opening
    have headEnd : Word.Headless ([Word.mark '}'] ++ words) := Word.headless_mark _ _
    rw [List.append_assoc, List.append_assoc, Token.chain_append, Token.chain_append] at inside
    have insideRun := Token.chain_append.mpr ⟨Code.chain_run_bare inside.2.1, inside.2.2⟩
    rw [← List.append_assoc] at insideRun
    have whole := Told.body fits positive tiles rebuilt insideRun (.append filled _ _) inner headEnd
      ending
    simpa only [Outline.words, List.append_assoc] using whole

/-- The declarations as they are printed have their words and notes. -/
theorem told {outline : Outline} {offset : Nat} {after : Text} (tiles : outline.Tiles offset)
    (rebuilt : outline.Rebuilt job) (ready : outline.Ready job)
    (chain : Token.Chain outline.tokens after) : outline.Told job after := by
  induction outline generalizing offset after with
  | nil =>
      refine ⟨fun text others notes _ _ tells => tells, ?_⟩
      intro indent _ id listed
      cases listed
  | leaf site node rest ih =>
      obtain ⟨⟨trivia, siteReady⟩, restReady⟩ := ready
      obtain ⟨_, _, restRebuilt⟩ := rebuilt
      have restChain := (Token.chain_append.mp chain).2
      have positive := tiles.1.stop_pos (Token.chain_append.mp chain).1
      exact .leaf siteReady chain
        (fun text isNext => follows_printed positive tiles.2 restRebuilt restChain isNext)
        (ih tiles.2 restRebuilt restReady restChain)
  | type site shape members rest ihMembers ihRest =>
      obtain ⟨⟨trivia, siteReady⟩, isBrace, clean, membersReady, restReady⟩ := ready
      obtain ⟨siteTiles, body, memberTiles, restTiles⟩ := tiles
      obtain ⟨place, memberRebuilt, restRebuilt⟩ := rebuilt
      obtain ⟨siteChain, restChain⟩ := Token.chain_append.mp chain
      have positive := siteTiles.stop_pos siteChain
      have follows : ∀ text, Text.Follows text after →
          (rest.printed job ++ text).Follows (Token.spell rest.tokens ++ after) :=
        fun text isNext => follows_printed positive restTiles restRebuilt restChain isNext
      have others := ihRest restTiles restRebuilt restReady restChain
      cases converted : job.record? site.id with
      | none =>
          exact .unconverted siteReady converted isBrace body memberTiles memberRebuilt
            chain follows
            (fun after chainMembers =>
              ihMembers memberTiles memberRebuilt membersReady chainMembers) others
      | some record =>
          rw [converted] at place
          rw [body.split, Token.chain_append, Token.chain_append] at siteChain
          have inner := ihMembers memberTiles memberRebuilt membersReady siteChain.1.2
          exact .converted siteReady converted (clean record converted) place.2.2 chain follows
            inner.asMembers others

end Outline

end JavaRecords
