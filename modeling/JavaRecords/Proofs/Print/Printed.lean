import JavaRecords.Proofs.Conversion.Settled
import JavaRecords.Proofs.Parse.Tiling
import JavaRecords.Proofs.Print.Logged

set_option autoImplicit false

namespace JavaRecords

/-- A conversion to be printed: the new tree, the new ids of the declarations, and the records, with
the members of the class as they were. -/
structure Printing where
  tree : SyntaxTree
  image : NodeId → NodeId
  record? : NodeId → Option RecordDecl

namespace Printing

def newline (job : Printing) : Text := Text.lineEnding job.tree.source

/-- The members of a record, each on a line of its own and with an empty line between two. -/
def lines (newline : Text) : List Text → Text
  | [] => []
  | [text] => newline ++ text
  | text :: rest => newline ++ text ++ newline ++ lines newline rest

def record (job : Printing) (id : NodeId) (record : RecordDecl) (members : List Text) : Text :=
  let trivia := job.tree.trivia
  SyntaxTree.commentLines record.indent job.newline (trivia.leading (job.image id))
    ++ SyntaxTree.recordHeader record ++ lines job.newline members
    ++ (trivia.dangling (job.image id)).flatMap (fun comment =>
      job.newline ++ (record.indent ++ SyntaxTree.memberIndent) ++ comment.text)
    ++ job.newline ++ record.indent ++ ['}']
    ++ SyntaxTree.commentTail (trivia.trailing (job.image id))

def member (job : Printing) (indent : Text) (id : NodeId) (source : Excerpt) (text : Text) : Text :=
  let indent := if source.indent.isEmpty then indent else source.indent
  let leading := (job.tree.trivia.leading (job.image id)).filter fun comment =>
    comment.span.stop ≤ source.range.start
  SyntaxTree.commentLines indent job.newline leading ++ indent ++ text
    ++ SyntaxTree.commentTail (job.tree.trivia.trailing (job.image id))

/-- The line break before a record that does not start its source. -/
def separator (job : Printing) (record : RecordDecl) : Text :=
  if record.extent.start > 0 then job.newline else []

end Printing

namespace Outline

mutual

def printed (job : Printing) : Outline → Text
  | nil => []
  | leaf site _ rest => Token.spell site.tokens ++ printed job rest
  | type site shape members rest =>
      (match job.record? site.id with
        | some record => job.separator record ++ job.record site.id record
            (record.members.filterMap fun id =>
              List.lookup id (memberTexts job (record.indent ++ SyntaxTree.memberIndent) members))
        | none =>
            Token.spell (site.lead ++ Code.bare (site.front shape) ++ Code.openingComments shape)
            ++ printed job members
            ++ Token.spell (members.dangling shape ++ shape.closing.token :: site.trail))
        ++ printed job rest

def memberTexts (job : Printing) (indent : Text) : Outline → List (NodeId × Text)
  | nil => []
  | leaf site _ rest =>
      (site.id, job.member indent site.id (site.placed job.tree.source).source site.piece.text)
        :: memberTexts job indent rest
  | type site shape members rest =>
      (site.id, match job.record? site.id with
        | some record => job.record site.id record
            (record.members.filterMap fun id =>
              List.lookup id (memberTexts job (record.indent ++ SyntaxTree.memberIndent) members))
        | none => job.member indent site.id (site.placed job.tree.source).source
            (Token.spell (Code.run (site.front shape) ++ Code.openingComments shape)
              ++ printed job members
              ++ Token.spell (members.dangling shape ++ [shape.closing.token])))
        :: memberTexts job indent rest

end

def recordText (job : Printing) (id : NodeId) (record : RecordDecl) (members : Outline) : Text :=
  job.record id record (record.members.filterMap fun id =>
    List.lookup id (memberTexts job (record.indent ++ SyntaxTree.memberIndent) members))

mutual

/-- The records among the declarations as they are printed. -/
def log (job : Printing) : Outline → List NodeId
  | nil => []
  | leaf _ _ rest => log job rest
  | type site _ members rest =>
      (match job.record? site.id with
        | some record => job.image site.id
            :: (record.members.filterMap fun id => List.lookup id (memberLogs job members)).flatten
        | none => log job members)
        ++ log job rest

def memberLogs (job : Printing) : Outline → List (NodeId × List NodeId)
  | nil => []
  | leaf site _ rest => (site.id, []) :: memberLogs job rest
  | type site _ members rest =>
      (site.id, match job.record? site.id with
        | some record => job.image site.id
            :: (record.members.filterMap fun id => List.lookup id (memberLogs job members)).flatten
        | none => log job members)
        :: memberLogs job rest

end

/-- How many declarations there are, at every depth. -/
def size : Outline → Nat
  | nil => 0
  | leaf _ _ rest => rest.size + 1
  | type _ _ members rest => members.size + rest.size + 1

theorem Numbered.size {low high : Nat} {outline : Outline} (numbered : outline.Numbered low high) :
    low + outline.size = high := by
  induction outline generalizing low high with
  | nil => exact numbered
  | leaf site node rest ih =>
      have := ih numbered.2
      simp only [Outline.size]
      omega
  | type site shape members rest ihMembers ihRest =>
      have first : low + members.size = site.id := ihMembers numbered.1
      have second : site.id + 1 + rest.size = high := ihRest numbered.2
      simp only [Outline.size]
      have total : low + (members.size + rest.size + 1) = (low + members.size) + 1 + rest.size := by
        omega
      rw [total, first, second]

/-- The declarations that the printer is given: those whose nodes pass a test, and all classes. -/
def listed (keep : Node → Bool) : Outline → List NodeId
  | nil => []
  | leaf site node rest => (if keep node then [site.id] else []) ++ rest.listed keep
  | type site _ _ rest => site.id :: rest.listed keep

theorem listed_true (outline : Outline) : outline.listed (fun _ => true) = outline.ids := by
  induction outline with
  | nil => rfl
  | leaf site node rest ih => simp [listed, ids, ih]
  | type site shape members rest _ ih => simp [listed, ids, ih]

theorem mem_ids_of_mem_listed {keep : Node → Bool} {outline : Outline} {id : NodeId}
    (listed : id ∈ outline.listed keep) : id ∈ outline.ids := by
  induction outline with
  | nil => cases listed
  | leaf site node rest ih =>
      rcases List.mem_append.mp listed with here | later
      · split at here
        · exact List.mem_cons.mpr (Or.inl (List.mem_singleton.mp here))
        · cases here
      · exact List.mem_cons_of_mem _ (ih later)
  | type site shape members rest _ ih =>
      rcases List.mem_cons.mp listed with rfl | later
      · exact List.mem_cons_self
      · exact List.mem_cons_of_mem _ (ih later)

theorem listed_isMember (outline : Outline) : outline.listed Node.isMember = outline.types := by
  induction outline with
  | nil => rfl
  | leaf site node rest ih =>
      rw [listed, types, ih]
      split <;> rfl
  | type site shape members rest _ ih => simp [listed, types, ih]

/-- A node that is printed as it stands in the source. -/
def Plain (source : Excerpt) : Node → Prop
  | .classDecl _ | .record _ => False
  | node => node.source? = some source

/-- The new tree has a record in the place of each class that is converted, and the other
declarations in their places. -/
def Rebuilt (job : Printing) : Outline → Prop
  | nil => True
  | leaf site node rest =>
      job.tree.node? (job.image site.id) = some node ∧
      Plain (site.placed job.tree.source).source node ∧ rest.Rebuilt job
  | type site _ members rest =>
      (match job.record? site.id with
        | some record =>
            job.tree.node? (job.image site.id) = some (.record
              { record with members := record.members.map job.image }) ∧
            record.extent = ⟨site.cursor, site.stop⟩ ∧
            ∀ member ∈ record.members, member ∈ members.ids
        | none => ∃ decl : ClassDecl, decl.members = members.ids.map job.image ∧
            decl.source = (site.placed job.tree.source).source ∧
            job.tree.node? (job.image site.id) = some (.classDecl decl)) ∧
      members.Rebuilt job ∧ rest.Rebuilt job

end Outline

namespace Printing

open SyntaxTree

variable {job : Printing} {fuel : Nat} {ids others : List NodeId} {log logs : List NodeId}
  {before gap body more printed text : Text}

theorem loggedList_append {one : NodeId → Nat → Option ((Text × Nat) × List NodeId)}
    {cursor next last : Nat} {text texts : Text}
    (first : loggedList one ids cursor = some ((text, next), log))
    (second : loggedList one others next = some ((texts, last), logs)) :
    loggedList one (ids ++ others) cursor = some ((text ++ texts, last), log ++ logs) := by
  induction ids generalizing cursor text log with
  | nil =>
      cases first
      exact second
  | cons id rest ih =>
      rw [loggedList] at first
      obtain ⟨⟨⟨here, middle⟩, own⟩, printed, first⟩ := Option.bind_eq_some_iff.mp first
      obtain ⟨⟨⟨later, stop⟩, others⟩, printedRest, first⟩ := Option.bind_eq_some_iff.mp first
      cases first
      simp [loggedList, printed, ih printedRest]

/-- The printer goes over the declarations `ids`, whose source is `body`: it has printed the source
`before` and is to print `gap` first, and in the end all is printed but a part of the source that
stays. -/
def Splices (job : Printing) (fuel : Nat) (ids : List NodeId) (before gap body printed : Text)
    (log : List NodeId) : Prop :=
  ∃ after left text, after ++ left = before ++ gap ++ body ∧ text ++ left = gap ++ printed ∧
    loggedList (loggedNode job.tree job.newline fuel) ids (Text.byteSize before) =
      some ((text, Text.byteSize after), log)

theorem Splices.nil (job : Printing) (fuel : Nat) (before gap body : Text) :
    Splices job fuel [] before gap body body [] :=
  ⟨before, gap ++ body, [], by simp, rfl, rfl⟩

theorem Splices.append {bodies printeds : Text}
    (first : Splices job fuel ids before gap body printed log)
    (second : ∀ after left, after ++ left = before ++ gap ++ body →
      Splices job fuel others after left bodies printeds logs) :
    Splices job fuel (ids ++ others) before gap (body ++ bodies) (printed ++ printeds)
      (log ++ logs) := by
  obtain ⟨after, left, text, source, texts, spliced⟩ := first
  obtain ⟨last, rest, tail, sourceRest, textsRest, splicedRest⟩ := second after left source
  refine ⟨last, rest, text ++ tail, ?_, ?_, ?_⟩
  · rw [sourceRest, source]
    simp only [List.append_assoc]
  · rw [List.append_assoc, textsRest, ← List.append_assoc, texts, List.append_assoc]
  · exact loggedList_append spliced splicedRest

/-- Source after the declarations stays. -/
theorem Splices.extend (spliced : Splices job fuel ids before gap body printed log) (more : Text) :
    Splices job fuel ids before gap (body ++ more) (printed ++ more) log := by
  have both := spliced.append fun after left _ => Splices.nil job fuel after left more
  simpa using both

/-- Source before the declarations stays. -/
theorem Splices.advance (spliced : Splices job fuel ids before (gap ++ more) body printed log) :
    Splices job fuel ids before gap (more ++ body) (more ++ printed) log := by
  obtain ⟨after, left, text, source, texts, spliced⟩ := spliced
  exact ⟨after, left, text, by simpa using source, by simpa using texts, spliced⟩

theorem Splices.of_node {id : NodeId} (after left text : Text)
    (source : after ++ left = before ++ gap ++ body) (texts : text ++ left = gap ++ printed)
    (node : loggedNode job.tree job.newline fuel id (Text.byteSize before) =
      some ((text, Text.byteSize after), log)) :
    Splices job fuel [id] before gap body printed log :=
  ⟨after, left, text, source, texts, by simp [loggedList, node]⟩

/-- A declaration that is neither a class nor a record stays. -/
theorem Splices.plain {id : NodeId} {node : Node} {source : Excerpt}
    (found : job.tree.node? id = some node) (plain : Outline.Plain source node)
    (before gap body : Text) : Splices job (fuel + 1) [id] before gap body body [] := by
  refine .of_node before (gap ++ body) [] (by simp) rfl ?_
  rw [loggedNode, found]
  cases node
  case classDecl => cases plain
  case record => cases plain
  all_goals rfl

theorem Splices.class {id : NodeId} {decl : ClassDecl}
    (found : job.tree.node? id = some (.classDecl decl))
    (spliced : Splices job fuel decl.members before gap body printed log) :
    Splices job (fuel + 1) [id] before gap body printed log := by
  obtain ⟨after, left, text, source, texts, spliced⟩ := spliced
  refine .of_node after left text source texts ?_
  rw [loggedNode, found]
  exact spliced

/-- A record stands in the place of the source it covers. -/
theorem Splices.record {id : NodeId} {record : RecordDecl} {after : Text}
    (found : job.tree.node? id = some (.record record))
    (source : job.tree.source = before ++ gap ++ body ++ after)
    (extent : record.extent = ⟨Text.byteSize (before ++ gap),
      Text.byteSize (before ++ gap) + Text.byteSize body⟩)
    (recorded : loggedRecord job.tree job.newline fuel id record = some (text, log)) :
    Splices job (fuel + 1) [id] before gap body (job.separator record ++ text) log := by
  refine .of_node (before ++ gap ++ body) [] (gap ++ job.separator record ++ text) (by simp)
    (by simp) ?_
  have inside : (decide (record.extent.start < Text.byteSize before) ||
      decide (Text.byteSize job.tree.source < record.extent.stop)) = false := by
    rw [extent, source]
    simp
    omega
  have sliced : Text.slice? job.tree.source (Text.byteSize before) record.extent.start =
      some gap := by
    have cut := Text.slice?_append before gap (body ++ after)
    rw [← List.append_assoc, ← source] at cut
    rw [extent, Text.byteSize_append]
    exact cut
  rw [loggedNode, found]
  dsimp only
  rw [inside, sliced]
  simp [recorded, extent, separator, Nat.add_assoc]

/-- The members of a record are printed one after the other. -/
theorem loggedLines_eq (newline : Text) (image : NodeId → NodeId)
    {member : NodeId → Option (Text × List NodeId)} {texts : List (NodeId × Text)}
    {logs : List (NodeId × List NodeId)}
    {ids : List NodeId} (each : ∀ id ∈ ids, ∃ text log, List.lookup id texts = some text ∧
      List.lookup id logs = some log ∧ member (image id) = some (text, log)) :
    loggedLines newline member (ids.map image) =
      some (lines newline (ids.filterMap fun id => List.lookup id texts),
        (ids.filterMap fun id => List.lookup id logs).flatten) := by
  induction ids with
  | nil => rfl
  | cons id rest ih =>
      obtain ⟨text, log, found, logged, printed⟩ := each id List.mem_cons_self
      have others := ih fun other listed => each other (List.mem_cons_of_mem _ listed)
      cases rest with
      | nil => simp [loggedLines, lines, found, logged, printed]
      | cons next rest =>
          obtain ⟨nextText, nextLog, foundNext, loggedNext, _⟩ := each next (by simp)
          simp only [List.map_cons, List.filterMap_cons, foundNext, loggedNext] at others
          simp [loggedLines, lines, found, logged, printed, foundNext, loggedNext, others]

end Printing

namespace Code

theorem spell_bare (first : CodeToken) (rest : List CodeToken) :
    Token.spell (bare (first :: rest)) =
      first.token.space ++ Token.spell (run (first :: rest)) := by
  simp [bare, run]

theorem run_append {left : List CodeToken} (nonempty : left ≠ []) (right : List CodeToken) :
    run (left ++ right) = run left ++ flat right := by
  cases left with
  | nil => exact absurd rfl nonempty
  | cons first rest => simp [run]

end Code

namespace Outline

/-- The text before the first token of a class belongs to its front. -/
theorem BodyTiles.spell_front {offset : Nat} {site : Site} {shape : ClassShape} {members : Outline}
    (tiles : BodyTiles offset site shape members) :
    Token.spell (Code.bare (site.front shape)) =
      site.piece.first.token.space ++ Token.spell (Code.run (site.front shape)) := by
  obtain ⟨first, rest, front⟩ := List.exists_cons_of_ne_nil tiles.front
  have same := tiles.tokens
  rw [front, Piece.tokens] at same
  rw [front, (List.cons.inj same).1, Code.spell_bare]

/-- The text of a class: that before its members, the members, and that after them. -/
theorem BodyTiles.text_eq {offset : Nat} {site : Site} {shape : ClassShape} {members : Outline}
    (tiles : BodyTiles offset site shape members) :
    site.piece.text = Token.spell (Code.run (site.front shape) ++ Code.openingComments shape)
      ++ Token.spell members.tokens
      ++ Token.spell (members.dangling shape ++ [shape.closing.token]) := by
  have body : Code.flat (shape.inside ++ [shape.closing]) =
      (Code.flat shape.inside ++ shape.closing.comments) ++ [shape.closing.token] := by
    simp
  rw [Piece.text, ← Code.spell_run, tiles.tokens, Code.run_append tiles.front, body, tiles.inside]
  simp only [Token.spell_append, List.append_assoc]

theorem BodyTiles.bare_eq {offset : Nat} {site : Site} {shape : ClassShape} {members : Outline}
    (tiles : BodyTiles offset site shape members) :
    Code.bare site.piece.tokens = Code.bare (site.front shape) ++ Code.openingComments shape
      ++ (members.tokens ++ (members.dangling shape ++ [shape.closing.token])) := by
  have body : Code.bare site.piece.tokens = Code.bare (site.front shape) ++
      (Code.flat shape.inside ++ shape.closing.comments ++ [shape.closing.token]) := by
    nth_rewrite 1 [tiles.tokens]
    rw [Code.bare_append tiles.front]
    simp
  rw [body, tiles.inside]
  simp only [List.append_assoc]

/-- The tokens of a class with the comments around it. -/
theorem BodyTiles.split {offset : Nat} {site : Site} {shape : ClassShape} {members : Outline}
    (tiles : BodyTiles offset site shape members) :
    site.tokens = site.lead ++ Code.bare (site.front shape) ++ Code.openingComments shape
      ++ members.tokens ++ (members.dangling shape ++ shape.closing.token :: site.trail) := by
  rw [Site.tokens, tiles.bare_eq]
  simp only [List.append_assoc, List.cons_append, List.nil_append]

theorem BodyTiles.start_eq {offset : Nat} {site : Site} {shape : ClassShape} {members : Outline}
    (body : BodyTiles offset site shape members) :
    Code.bodyStart shape = offset + Text.byteSize (Token.spell
      (site.lead ++ Code.bare (site.front shape) ++ Code.openingComments shape)) := by
  rw [body.start]
  simp only [Token.spell_append, Text.byteSize_append]
  omega

theorem BodyTiles.placed {offset : Nat} {site : Site} {shape : ClassShape} {members : Outline}
    (body : BodyTiles offset site shape members) (placed : Token.Placed offset site.tokens) :
    Token.Placed (Code.bodyStart shape) members.tokens := by
  rw [body.split, Token.placed_append, Token.placed_append] at placed
  rw [body.start_eq]
  exact placed.1.2

def MembersPrinted (job : Printing) (fuel : Nat) (indent : Text) (outline : Outline) : Prop :=
  ∀ id ∈ outline.ids, ∃ text log, List.lookup id (outline.memberTexts job indent) = some text ∧
    List.lookup id (outline.memberLogs job) = some log ∧
    SyntaxTree.loggedMember job.tree job.newline fuel indent (job.image id) = some (text, log)

theorem MembersPrinted.record {job : Printing} {fuel : Nat} {id : NodeId} {record : RecordDecl}
    {members : Outline}
    (printed : members.MembersPrinted job fuel (record.indent ++ SyntaxTree.memberIndent))
    (kept : ∀ member ∈ record.members, member ∈ members.ids) :
    SyntaxTree.loggedRecord job.tree job.newline (fuel + 1) (job.image id)
        { record with members := record.members.map job.image } =
      some (members.recordText job id record, job.image id ::
          (record.members.filterMap
            fun id => List.lookup id (members.memberLogs job)).flatten) := by
  have lines := Printing.loggedLines_eq job.newline job.image fun member listed =>
    printed member (kept member listed)
  rw [SyntaxTree.loggedRecord]
  simp only [lines]
  rfl

/-- The printer prints the declarations, in a source and as members of a record. -/
structure Prints (job : Printing) (keep : Node → Bool) (fuel : Nat) (before gap : Text)
    (outline : Outline) : Prop where
  spliced : job.Splices fuel ((outline.listed keep).map job.image) before gap
    (Token.spell outline.tokens) (outline.printed job) (outline.log job)
  members : ∀ indent, outline.MembersPrinted job fuel indent

variable {job : Printing} {keep : Node → Bool} {fuel : Nat} {before gap after : Text}

theorem MembersPrinted.cons {outline rest : Outline} {own : NodeId} {indent text : Text}
    {log : List NodeId} (ids : outline.ids = own :: rest.ids)
    (texts : outline.memberTexts job indent = (own, text) :: rest.memberTexts job indent)
    (logs : outline.memberLogs job = (own, log) :: rest.memberLogs job)
    (here : SyntaxTree.loggedMember job.tree job.newline fuel indent (job.image own) =
      some (text, log))
    (others : rest.MembersPrinted job fuel indent) : outline.MembersPrinted job fuel indent := by
  intro id listed
  rw [texts, logs]
  by_cases same : id = own
  · subst same
    exact ⟨text, log, List.lookup_cons_self, List.lookup_cons_self, here⟩
  · rw [Rebuild.lookup_cons_of_ne _ same, Rebuild.lookup_cons_of_ne _ same]
    rw [ids] at listed
    exact others id (List.mem_of_ne_of_mem same listed)

theorem Prints.leaf {site : Site} {node : Node} {rest : Outline}
    (found : job.tree.node? (job.image site.id) = some node)
    (plain : Plain (site.placed job.tree.source).source node)
    (others : ∀ next left, next ++ left = before ++ gap ++ Token.spell site.tokens →
      Prints job keep (fuel + 1) next left rest) :
    Prints job keep (fuel + 1) before gap (.leaf site node rest) := by
  refine ⟨?_, fun indent => .cons rfl rfl rfl ?_ ((others _ [] (List.append_nil _)).members indent)⟩
  · have here : job.Splices (fuel + 1) (List.map job.image (if keep node then [site.id] else []))
        before gap (Token.spell site.tokens) (Token.spell site.tokens) [] := by
      split
      · exact .plain found plain before gap _
      · exact .nil job _ before gap _
    have all := here.append fun next left joined => (others next left joined).spliced
    simpa [listed, tokens, printed, log] using all
  · rw [SyntaxTree.loggedMember, found]
    cases node
    case classDecl => cases plain
    case record => cases plain
    all_goals
      have source := plain
      simp only [Plain, Node.source?, Option.some.injEq] at source
      simp only [Node.source?, source]
      rfl

theorem Prints.converted {site : Site} {shape : ClassShape} {members rest : Outline}
    {record : RecordDecl} (converted : job.record? site.id = some record)
    (found : job.tree.node? (job.image site.id) = some (.record
      { record with members := record.members.map job.image }))
    (extent : record.extent = ⟨Text.byteSize (before ++ gap),
      Text.byteSize (before ++ gap) + Text.byteSize (Token.spell site.tokens)⟩)
    (kept : ∀ member ∈ record.members, member ∈ members.ids)
    (source : job.tree.source = before ++ gap ++ Token.spell site.tokens ++ after)
    (inner : ∀ indent, members.MembersPrinted job fuel indent)
    (others : ∀ next left, next ++ left = before ++ gap ++ Token.spell site.tokens →
      Prints job keep (fuel + 2) next left rest) :
    Prints job keep (fuel + 2) before gap (.type site shape members rest) := by
  refine ⟨?_, fun indent => .cons rfl rfl rfl ?_ ((others _ [] (List.append_nil _)).members indent)⟩
  · have here := Printing.Splices.record found source extent ((inner _).record kept)
    have all := here.append fun next left joined => (others next left joined).spliced
    simpa [listed, tokens, printed, log, converted, Printing.separator, recordText] using all
  · rw [SyntaxTree.loggedMember, found]
    simp only [converted]
    exact (inner _).record kept

theorem loggedVerbatim_eq {site : Site} {shape : ClassShape} {members : Outline} {offset : Nat}
    (tiles : site.Tiles offset) (body : BodyTiles offset site shape members)
    (start : offset = Text.byteSize before)
    (source : job.tree.source = before ++ Token.spell site.tokens ++ after)
    (inner : ∀ next left, next ++ left = before ++ Token.spell
        (site.lead ++ Code.bare (site.front shape) ++ Code.openingComments shape) →
      Prints job (fun _ => true) fuel next left members) :
    SyntaxTree.loggedVerbatim job.tree job.newline (fuel + 1)
        (site.placed job.tree.source).source (members.ids.map job.image) =
      some (Token.spell (Code.run (site.front shape) ++ Code.openingComments shape)
        ++ members.printed job ++ Token.spell (members.dangling shape ++ [shape.closing.token]),
        members.log job) := by
  let head := before ++ Token.spell site.lead ++ site.piece.first.token.space
  let opened := Token.spell (Code.run (site.front shape) ++ Code.openingComments shape)
  let closed := Token.spell (members.dangling shape ++ [shape.closing.token])
  have own : site.piece.text = opened ++ Token.spell members.tokens ++ closed := body.text_eq
  have whole : job.tree.source = head ++ site.piece.text ++ (Token.spell site.trail ++ after) := by
    rw [source, Site.tokens, Piece.text, ← Code.spell_run]
    simp only [Token.spell_append, Piece.tokens, Code.spell_bare, List.append_assoc, head]
  have rangeStart : site.piece.first.start = Text.byteSize head := by
    rw [tiles.start, start]
    simp only [Text.byteSize_append, head]
  have rangeStop : site.piece.last.stop = Text.byteSize head + Text.byteSize site.piece.text := by
    rw [tiles.last, start, Piece.tokens, Code.spell_bare, Code.spell_run]
    simp only [Text.byteSize_append, head, Piece.text, Piece.tokens]
    omega
  obtain ⟨next, left, text, joined, texts, spliced⟩ := (inner head opened (by
    simp only [Token.spell_append, body.spell_front, List.append_assoc, head, opened])).spliced
  rw [listed_true] at spliced
  have inside : Text.slice? job.tree.source site.piece.first.start site.piece.last.stop =
      some site.piece.text := by
    rw [whole, rangeStart, rangeStop]
    exact Text.slice?_append _ _ _
  have cut : head ++ site.piece.text = next ++ (left ++ closed) := by
    rw [own, ← List.append_assoc, ← List.append_assoc, ← joined, List.append_assoc]
  have total := congrArg Text.byteSize cut
  simp only [Text.byteSize_append] at total
  have tail : Text.slice? job.tree.source
      (min (Text.byteSize next) site.piece.last.stop) site.piece.last.stop =
        some (left ++ closed) := by
    have sliced := Text.slice?_append next (left ++ closed) (Token.spell site.trail ++ after)
    rw [← cut, ← whole] at sliced
    have least : min (Text.byteSize next) site.piece.last.stop = Text.byteSize next := by omega
    have final : site.piece.last.stop =
        Text.byteSize next + Text.byteSize (left ++ closed) := by
      rw [Text.byteSize_append]
      omega
    rw [least, final]
    exact sliced
  rw [SyntaxTree.loggedVerbatim]
  change (if Text.slice? job.tree.source site.piece.first.start site.piece.last.stop =
    some site.piece.text then _ else _) = _
  rw [if_pos inside]
  change (SyntaxTree.loggedList _ _ site.piece.first.start >>= _) = _
  rw [rangeStart, spliced]
  change (Text.slice? job.tree.source
    (min (Text.byteSize next) site.piece.last.stop) site.piece.last.stop >>= _) = _
  rw [tail]
  simp only [Option.bind_eq_bind, Option.bind_some]
  rw [← List.append_assoc text, texts]

/-- A class that stays, with the declarations after it. -/
theorem Prints.kept {site : Site} {shape : ClassShape} {members rest : Outline} {offset : Nat}
    {decl : ClassDecl} (stays : job.record? site.id = none)
    (found : job.tree.node? (job.image site.id) = some (.classDecl decl))
    (declMembers : decl.members = members.ids.map job.image)
    (declSource : decl.source = (site.placed job.tree.source).source)
    (tiles : site.Tiles offset) (body : BodyTiles offset site shape members)
    (start : offset = Text.byteSize (before ++ gap))
    (source : job.tree.source = before ++ gap ++ Token.spell site.tokens ++ after)
    (inner : ∀ more, fuel ≤ more → ∀ next left, next ++ left = before ++ gap ++ Token.spell
        (site.lead ++ Code.bare (site.front shape) ++ Code.openingComments shape) →
      Prints job (fun _ => true) more next left members)
    (others : ∀ next left, next ++ left = before ++ gap ++ Token.spell site.tokens →
      Prints job keep (fuel + 2) next left rest) :
    Prints job keep (fuel + 2) before gap (.type site shape members rest) := by
  refine ⟨?_, fun indent => .cons rfl rfl rfl ?_ ((others _ [] (List.append_nil _)).members indent)⟩
  · have spliced := (inner (fuel + 1) (Nat.le_succ fuel) before _
      (List.append_assoc _ _ _).symm).spliced
    rw [listed_true, ← declMembers] at spliced
    have here := Printing.Splices.class found (spliced.advance.extend
      (Token.spell (members.dangling shape ++ shape.closing.token :: site.trail)))
    have joined : Token.spell (site.lead ++ Code.bare (site.front shape)
          ++ Code.openingComments shape) ++ Token.spell members.tokens
        ++ Token.spell (members.dangling shape ++ shape.closing.token :: site.trail) =
          Token.spell site.tokens := by
      rw [body.split]
      simp only [Token.spell_append]
    rw [joined] at here
    have all := here.append fun next left joined => (others next left joined).spliced
    rw [← Token.spell_append] at all
    simpa only [listed, tokens, printed, log, stays, List.map_cons, List.singleton_append] using all
  · have verbatim := loggedVerbatim_eq tiles body start source (inner fuel (Nat.le_refl fuel))
    rw [SyntaxTree.loggedMember, found]
    simp only [Node.source?, declSource, declMembers, verbatim, stays]
    rfl

theorem BodyTiles.members_source {site : Site} {shape : ClassShape} {members : Outline}
    {front source : Text} (body : BodyTiles (Text.byteSize front) site shape members)
    (whole : front ++ Token.spell site.tokens <+: source) :
    front ++ Token.spell (site.lead ++ Code.bare (site.front shape) ++ Code.openingComments shape)
        ++ Token.spell members.tokens <+: source ∧
      Code.bodyStart shape = Text.byteSize (front ++ Token.spell
        (site.lead ++ Code.bare (site.front shape) ++ Code.openingComments shape)) := by
  constructor
  · refine List.IsPrefix.trans ?_ whole
    rw [body.split]
    simp only [Token.spell_append, List.append_assoc, List.prefix_append_right_inj]
    exact List.prefix_append _ _
  · rw [body.start_eq, Text.byteSize_append]

/-- The printer prints the declarations. Each takes two steps at most on the way down. -/
theorem prints {outline : Outline} {offset : Nat} (tiles : outline.Tiles offset)
    (rebuilt : outline.Rebuilt job) (enough : 2 * outline.size + 1 ≤ fuel)
    (source : before ++ gap ++ Token.spell outline.tokens <+: job.tree.source)
    (start : offset = Text.byteSize (before ++ gap)) : Prints job keep fuel before gap outline := by
  induction outline generalizing keep offset fuel before gap with
  | nil => exact ⟨.nil job fuel before gap [], fun _ _ listed => absurd listed List.not_mem_nil⟩
  | leaf site node rest ih =>
      subst start
      obtain ⟨siteTiles, restTiles⟩ := tiles
      obtain ⟨found, plain, restRebuilt⟩ := rebuilt
      simp only [size] at enough
      obtain ⟨less, rfl⟩ : ∃ less, fuel = less + 1 := ⟨fuel - 1, by omega⟩
      rw [tokens, Token.spell_append, ← List.append_assoc] at source
      exact .leaf found plain fun next left joined => ih restTiles restRebuilt (by omega)
        (joined ▸ source) (joined ▸ siteTiles.stop_append)
  | type site shape members rest ihMembers ihRest =>
      subst start
      obtain ⟨siteTiles, body, memberTiles, restTiles⟩ := tiles
      obtain ⟨place, memberRebuilt, restRebuilt⟩ := rebuilt
      simp only [size] at enough
      obtain ⟨less, rfl⟩ : ∃ less, fuel = less + 2 := ⟨fuel - 2, by omega⟩
      rw [tokens, Token.spell_append, ← List.append_assoc] at source
      have own : before ++ gap ++ Token.spell site.tokens <+: job.tree.source :=
        (List.prefix_append _ _).trans source
      have others : ∀ next left, next ++ left = before ++ gap ++ Token.spell site.tokens →
          Prints job keep (less + 2) next left rest :=
        fun next left joined => ihRest restTiles restRebuilt (by omega) (joined ▸ source)
          (joined ▸ siteTiles.stop_append)
      obtain ⟨memberSource, bodyStart⟩ := body.members_source own
      have inner : ∀ more, less ≤ more → ∀ next left, next ++ left = before ++ gap ++ Token.spell
            (site.lead ++ Code.bare (site.front shape) ++ Code.openingComments shape) →
          Prints job (fun _ => true) more next left members :=
        fun more large next left joined => ihMembers memberTiles memberRebuilt (by omega)
          (joined ▸ memberSource) (joined ▸ bodyStart)
      obtain ⟨after, whole⟩ := own
      cases converted : job.record? site.id with
      | some record =>
          rw [converted] at place
          obtain ⟨found, extent, kept⟩ := place
          rw [siteTiles.cursor, siteTiles.stop] at extent
          exact .converted converted found extent kept whole.symm
            (inner less (Nat.le_refl less) _ _ (List.append_nil _)).members others
      | none =>
          rw [converted] at place
          obtain ⟨decl, declMembers, declSource, found⟩ := place
          exact .kept converted found declMembers declSource siteTiles body rfl whole.symm
            inner others

end Outline

end JavaRecords
