import JavaRecords.Proofs.Parse.Header

set_option autoImplicit false

namespace JavaRecords

namespace Code

/-- The tokens of a run, without the comments before the first. -/
def bare : List CodeToken → List Token
  | [] => []
  | first :: rest => first.token :: flat rest

theorem flat_eq_comments_bare (first : CodeToken) (rest : List CodeToken) :
    flat (first :: rest) = first.comments ++ bare (first :: rest) := by
  simp [bare]

theorem bare_append {left : List CodeToken} (nonempty : left ≠ []) (right : List CodeToken) :
    bare (left ++ right) = bare left ++ flat right := by
  cases left with
  | nil => exact absurd rfl nonempty
  | cons first rest => simp [bare]

theorem following_prefix (tail : List Token) (pieces : List Piece) :
    following tail pieces <+: flat (pieces.flatMap Piece.tokens) ++ tail := by
  cases pieces with
  | nil => simp [following]
  | cons piece rest =>
      simp only [following, List.flatMap_cons, Piece.tokens, List.cons_append, flat_cons,
        List.append_assoc]
      exact List.prefix_append _ _

theorem sameLine_prefix (comments : List Token) : sameLine comments <+: comments := by
  induction comments with
  | nil => exact List.nil_prefix
  | cons comment rest ih =>
      rw [sameLine]
      split
      · exact List.nil_prefix
      · split
        · exact ⟨rest, rfl⟩
        · exact (List.cons_prefix_cons).mpr ⟨rfl, ih⟩

theorem endOf_of_placed {offset : Nat} {comments : List Token}
    (placed : Token.Placed offset comments) :
    endOf offset comments = offset + Text.byteSize (Token.spell comments) := by
  unfold endOf
  cases last : comments.getLast? with
  | none =>
      rw [List.getLast?_eq_none_iff.mp last]
      rfl
  | some comment => exact Token.stop_of_placed placed last

/-- The comments from where some of them stop are the others. -/
theorem commentsFrom_of_placed {offset : Nat} {front back : List Token}
    (placed : Token.Placed offset (front ++ back)) (visible : ∀ token ∈ front, token.text ≠ []) :
    commentsFrom (offset + Text.byteSize (Token.spell front)) (front ++ back) = back := by
  have after : ∀ {offset : Nat} {tokens : List Token}, Token.Placed offset tokens →
      ∀ token ∈ tokens, offset ≤ token.start := by
    intro offset tokens placed token listed
    obtain ⟨before, later, rfl⟩ := List.append_of_mem listed
    obtain ⟨_, here⟩ := Token.placed_append.mp placed
    rw [(Token.placed_cons.mp here).1]
    omega
  have before : ∀ token ∈ front, token.start < offset + Text.byteSize (Token.spell front) := by
    intro token listed
    have positive := Text.byteSize_pos_of_ne_nil token.text (visible token listed)
    obtain ⟨earlier, later, rfl⟩ := List.append_of_mem listed
    obtain ⟨placedFront, _⟩ := Token.placed_append.mp placed
    obtain ⟨_, here⟩ := Token.placed_append.mp placedFront
    rw [(Token.placed_cons.mp here).1]
    simp only [Token.spell_append, Token.spell_cons, Text.byteSize_append]
    omega
  unfold commentsFrom
  rw [List.filter_append]
  have none : front.filter (fun comment =>
      decide (offset + Text.byteSize (Token.spell front) ≤ comment.start)) = [] := by
    apply List.filter_eq_nil_iff.mpr
    intro token listed
    simpa using before token listed
  have all : back.filter (fun comment =>
      decide (offset + Text.byteSize (Token.spell front) ≤ comment.start)) = back := by
    apply List.filter_eq_self.mpr
    intro token listed
    simpa using after (Token.placed_append.mp placed).2 token listed
  rw [none, all, List.nil_append]

end Code

namespace Site

/-- The comments before the declaration that belong to it. -/
def lead (site : Site) : List Token := Code.commentsFrom site.cursor site.piece.first.comments

def tokens (site : Site) : List Token :=
  site.lead ++ (Code.bare site.piece.tokens ++ site.trail)

def front (site : Site) (shape : ClassShape) : List CodeToken :=
  site.piece.tokens.take (site.piece.tokens.length - (shape.inside.length + 1))

/-- The byte offsets of a declaration whose tokens start at `offset`. -/
structure Tiles (offset : Nat) (site : Site) : Prop where
  cursor : site.cursor = offset
  start : site.piece.first.start = offset + Text.byteSize (Token.spell site.lead)
    + Text.byteSize site.piece.first.token.space
  last : site.piece.last.stop = offset + Text.byteSize (Token.spell site.lead)
    + Text.byteSize (Token.spell (Code.bare site.piece.tokens))
  stop : site.stop = offset + Text.byteSize (Token.spell site.tokens)

theorem Tiles.stop_append {site : Site} {front : Text} (tiles : site.Tiles (Text.byteSize front)) :
    site.stop = Text.byteSize (front ++ Token.spell site.tokens) := by
  rw [tiles.stop, Text.byteSize_append]

end Site

namespace Outline

def tokens : Outline → List Token
  | nil => []
  | leaf site _ rest => site.tokens ++ rest.tokens
  | type site _ _ rest => site.tokens ++ rest.tokens

def dangling (shape : ClassShape) (members : Outline) : List Token :=
  Code.commentsFrom (members.stopFrom (Code.bodyStart shape)) shape.closing.comments

/-- The tokens of a class are its header, its members and its closing brace. -/
structure BodyTiles (offset : Nat) (site : Site) (shape : ClassShape) (members : Outline) :
    Prop where
  front : site.front shape ≠ []
  tokens : site.piece.tokens = site.front shape ++ (shape.inside ++ [shape.closing])
  inside : Code.flat shape.inside ++ shape.closing.comments =
    Code.openingComments shape ++ (members.tokens ++ members.dangling shape)
  start : Code.bodyStart shape = offset + Text.byteSize (Token.spell site.lead)
    + Text.byteSize (Token.spell (Code.bare (site.front shape)))
    + Text.byteSize (Token.spell (Code.openingComments shape))
  stop : members.stopFrom (Code.bodyStart shape) =
    Code.bodyStart shape + Text.byteSize (Token.spell members.tokens)

/-- The declarations stand where their tokens do, from a byte offset on. -/
def Tiles (offset : Nat) : Outline → Prop
  | nil => True
  | leaf site _ rest => site.Tiles offset ∧ rest.Tiles site.stop
  | type site shape members rest =>
      site.Tiles offset ∧ BodyTiles offset site shape members ∧
        members.Tiles (Code.bodyStart shape) ∧ rest.Tiles site.stop

def Declared : Outline → Prop
  | nil => True
  | leaf _ _ rest => rest.Declared
  | type site shape members rest =>
      Code.Declares site.piece shape ∧ members.Declared ∧ rest.Declared

theorem Shaped.declared {source className : Text} {position : Nat} {outline : Outline}
    (shaped : outline.Shaped source className position) : outline.Declared := by
  induction outline generalizing className position with
  | nil => trivial
  | leaf site node rest ih => exact ih shaped.2
  | type site shape members rest ihMembers ihRest =>
      exact ⟨shaped.1, ihMembers shaped.2.1, ihRest shaped.2.2⟩

theorem UnitShaped.declared {source : Text} {outline : Outline}
    (shaped : outline.UnitShaped source) : outline.Declared := by
  induction outline with
  | nil => trivial
  | leaf site node rest ih => exact ih shaped.2
  | type site shape members rest _ ihRest =>
      exact ⟨shaped.1.declares, shaped.2.1.declared, ihRest shaped.2.2⟩

end Outline

def Token.Visible (tokens : List Token) : Prop := ∀ token ∈ tokens, token.text ≠ []

theorem Token.Visible.append {left right : List Token} :
    Visible (left ++ right) ↔ Visible left ∧ Visible right := by
  simp only [Visible, List.mem_append, or_imp, forall_and]

/-- The offsets of a declaration, from where the token before it stops and the comments that belong
to the declaration before. -/
theorem Site.tiles_of_placed {site : Site} {base : Nat} {before more : List Token}
    (placed : Token.Placed base (Code.flat site.piece.tokens ++ more))
    (visible : Token.Visible (Code.flat site.piece.tokens ++ more))
    (follows : site.following <+: more) (comments : before <+: site.piece.first.comments)
    (cursor : site.cursor = base + Text.byteSize (Token.spell before)) :
    site.piece.first.comments = before ++ site.lead ∧ site.Tiles site.cursor ∧
      site.piece.last.stop =
        base + Text.byteSize (Token.spell (Code.flat site.piece.tokens)) := by
  obtain ⟨after, split⟩ := comments
  obtain ⟨placedPiece, placedMore⟩ := Token.placed_append.mp placed
  obtain ⟨visiblePiece, _⟩ := Token.Visible.append.mp visible
  have flattened : Code.flat site.piece.tokens =
      before ++ (after ++ Code.bare site.piece.tokens) := by
    rw [Piece.tokens, Code.flat_eq_comments_bare, ← split, List.append_assoc]
  have lead : site.lead = after := by
    unfold lead
    rw [cursor, ← split]
    apply Code.commentsFrom_of_placed
    · rw [flattened, ← List.append_assoc] at placedPiece
      exact (Token.placed_append.mp placedPiece).1
    · intro token listed
      rw [flattened] at visiblePiece
      exact visiblePiece token (List.mem_append_left _ listed)
  have last : site.piece.last.stop =
      base + Text.byteSize (Token.spell (Code.flat site.piece.tokens)) := by
    refine Token.stop_of_placed placedPiece ?_
    rw [← site.piece.dropLast_append_last]
    simp
  have trail : site.stop = site.piece.last.stop + Text.byteSize (Token.spell site.trail) := by
    unfold stop
    apply Code.endOf_of_placed
    obtain ⟨others, joined⟩ := (Code.sameLine_prefix site.following).trans follows
    rw [last]
    rw [← joined] at placedMore
    exact (Token.placed_append.mp placedMore).1
  have start : site.piece.first.start = base + Text.byteSize (Token.spell (before ++ after))
      + Text.byteSize site.piece.first.token.space := by
    rw [flattened, ← List.append_assoc, Token.placed_append] at placedPiece
    exact (Token.placed_cons.mp placedPiece.2).1
  simp only [flattened, Token.spell_append, Text.byteSize_append] at last start
  refine ⟨by rw [lead, split], ⟨rfl, ?_, ?_, ?_⟩, ?_⟩
  · rw [start, cursor, lead]
    omega
  · rw [last, cursor, lead]
    omega
  · rw [trail, last, cursor, tokens, lead]
    simp only [Token.spell_append, Text.byteSize_append]
    omega
  · rw [last, flattened]
    simp only [Token.spell_append, Text.byteSize_append]

/-- The comments after an opening brace are those before the first member or the closing brace. -/
theorem openingComments_eq {shape : ClassShape} {pieces : List Piece}
    (inside : pieces.flatMap Piece.tokens = shape.inside) :
    Code.openingComments shape = Code.sameLine (Code.following shape.closing.comments pieces) := by
  unfold Code.openingComments
  rw [← inside]
  cases pieces with
  | nil => rfl
  | cons piece rest => simp [Piece.tokens, Code.following]

theorem ClassLayout.front_eq {site : Site} {shape : ClassShape}
    (layout : ClassLayout site.piece shape) :
    site.front shape = layout.taken ++ layout.keyword :: layout.name ::
      (layout.params ++ (shape.clauses ++ [shape.opening])) := by
  have split : site.piece.tokens = (layout.taken ++ layout.keyword :: layout.name ::
      (layout.params ++ (shape.clauses ++ [shape.opening]))) ++
        (shape.inside ++ [shape.closing]) := by
    rw [layout.tokens]
    simp
  have count : site.piece.tokens.length - (shape.inside.length + 1) =
      (layout.taken ++ layout.keyword :: layout.name ::
        (layout.params ++ (shape.clauses ++ [shape.opening]))).length := by
    rw [split]
    simp
    omega
  unfold Site.front
  rw [count, split, List.take_left]

theorem ClassLayout.tokens_eq {site : Site} {shape : ClassShape}
    (layout : ClassLayout site.piece shape) :
    site.piece.tokens = site.front shape ++ (shape.inside ++ [shape.closing]) := by
  rw [layout.front_eq, layout.tokens]
  simp

namespace ClassLayout

variable {site : Site} {shape : ClassShape}

theorem front_ne_nil (layout : ClassLayout site.piece shape) : site.front shape ≠ [] := by
  rw [layout.front_eq]
  simp

theorem flat_front (layout : ClassLayout site.piece shape) :
    Code.flat (site.front shape) =
      site.piece.first.comments ++ Code.bare (site.front shape) := by
  have split := layout.tokens_eq
  obtain ⟨first, others, front⟩ := List.exists_cons_of_ne_nil layout.front_ne_nil
  rw [front, Piece.tokens] at split
  rw [front, Code.flat_eq_comments_bare, (List.cons.inj split).1]

theorem flat_tokens (layout : ClassLayout site.piece shape) :
    Code.flat site.piece.tokens = Code.flat (site.front shape) ++
      ((Code.flat shape.inside ++ shape.closing.comments) ++ [shape.closing.token]) := by
  rw [layout.tokens_eq]
  simp

/-- The opening brace stops where the tokens up to it do. -/
theorem opening_stop (layout : ClassLayout site.piece shape) {base : Nat}
    (placed : Token.Placed base (Code.flat site.piece.tokens)) :
    shape.opening.stop = base + Text.byteSize (Token.spell (Code.flat (site.front shape))) ∧
      Token.Placed shape.opening.stop (Code.flat shape.inside ++ shape.closing.comments) := by
  rw [layout.flat_tokens] at placed
  obtain ⟨placedFront, placedBody⟩ := Token.placed_append.mp placed
  have stop : shape.opening.stop =
      base + Text.byteSize (Token.spell (Code.flat (site.front shape))) := by
    refine Token.stop_of_placed placedFront ?_
    have final : site.front shape = (layout.taken ++ layout.keyword :: layout.name ::
        (layout.params ++ shape.clauses)) ++ [shape.opening] := by
      rw [layout.front_eq]
      simp
    rw [final, Code.flat_append, Code.flat_cons, Code.flat_nil, ← List.append_assoc,
      List.getLast?_concat]
  rw [← stop] at placedBody
  exact ⟨stop, (Token.placed_append.mp placedBody).1⟩

theorem visible_inside (layout : ClassLayout site.piece shape)
    (visible : Token.Visible (Code.flat site.piece.tokens)) :
    Token.Visible (Code.flat shape.inside ++ shape.closing.comments) := by
  rw [layout.flat_tokens] at visible
  exact (Token.Visible.append.mp (Token.Visible.append.mp visible).2).1

/-- The body of a class starts after the comments on the line of its opening brace. -/
theorem bodyStart_eq {pieces : List Piece} {offset : Nat}
    (inside : pieces.flatMap Piece.tokens = shape.inside)
    (placed : Token.Placed offset (Code.flat shape.inside ++ shape.closing.comments))
    (stop : shape.opening.stop = offset) :
    Code.bodyStart shape = offset + Text.byteSize (Token.spell (Code.openingComments shape)) := by
  have first : Code.openingComments shape <+:
      Code.flat shape.inside ++ shape.closing.comments := by
    rw [openingComments_eq inside, ← inside]
    exact (Code.sameLine_prefix _).trans (Code.following_prefix _ _)
  obtain ⟨others, joined⟩ := first
  rw [← joined] at placed
  unfold Code.bodyStart
  rw [stop]
  exact Code.endOf_of_placed (Token.placed_append.mp placed).1

/-- A class is tiled by its header, its members and its closing brace if the tokens between its
braces are those of its members. -/
theorem bodyTiles {members : Outline} {before : List Token} {cursor base : Nat}
    (layout : ClassLayout site.piece shape)
    (inside : members.pieces.flatMap Piece.tokens = shape.inside)
    (placed : Token.Placed base (Code.flat site.piece.tokens))
    (start : cursor = base + Text.byteSize (Token.spell before))
    (lead : site.piece.first.comments = before ++ site.lead)
    (joined : Code.flat (members.pieces.flatMap Piece.tokens) ++ shape.closing.comments =
      Code.openingComments shape ++ (members.tokens ++ members.dangling shape))
    (stop : members.stopFrom (Code.bodyStart shape) =
      Code.bodyStart shape + Text.byteSize (Token.spell members.tokens)) :
    Outline.BodyTiles cursor site shape members := by
  obtain ⟨openingStop, placedBody⟩ := layout.opening_stop placed
  refine ⟨layout.front_ne_nil, layout.tokens_eq, ?_, ?_, stop⟩
  · rw [← inside]
    exact joined
  · rw [bodyStart_eq inside placedBody rfl, openingStop, start, layout.flat_front, lead]
    simp only [Token.spell_append, Text.byteSize_append]
    omega

end ClassLayout

namespace Outline

/-- A declaration that stands after another, with what comes after it. -/
theorem SiteLaid.tiles {tail before : List Token} {indent : Text} {cursor base : Nat}
    {site : Site} {rest : Outline} (laid : SiteLaid tail indent cursor site rest)
    (placed : Token.Placed base (Code.flat site.piece.tokens ++
      (Code.flat (rest.pieces.flatMap Piece.tokens) ++ tail)))
    (visible : Token.Visible (Code.flat site.piece.tokens ++
      (Code.flat (rest.pieces.flatMap Piece.tokens) ++ tail)))
    (comments : before <+: site.piece.first.comments)
    (start : cursor = base + Text.byteSize (Token.spell before)) :
    site.piece.first.comments = before ++ site.lead ∧
      Code.flat site.piece.tokens = before ++ (site.lead ++ Code.bare site.piece.tokens) ∧
      site.Tiles cursor ∧ site.trail <+: Code.following tail rest.pieces ∧
      site.stop = base + Text.byteSize (Token.spell (Code.flat site.piece.tokens))
        + Text.byteSize (Token.spell site.trail) := by
  have follows : site.following <+: Code.flat (rest.pieces.flatMap Piece.tokens) ++ tail := by
    rw [laid.following]
    exact Code.following_prefix tail rest.pieces
  obtain ⟨lead, tiles, _⟩ :=
    Site.tiles_of_placed placed visible follows comments (laid.cursor.trans start)
  have flattened : Code.flat site.piece.tokens =
      before ++ (site.lead ++ Code.bare site.piece.tokens) := by
    rw [Piece.tokens, Code.flat_eq_comments_bare, lead, List.append_assoc]
  rw [laid.cursor] at tiles
  refine ⟨lead, flattened, tiles, ?_, ?_⟩
  · rw [Site.trail, laid.following]
    exact Code.sameLine_prefix _
  · rw [tiles.stop, start, Site.tokens, flattened]
    simp only [Token.spell_append, Text.byteSize_append]
    omega

/-- The declarations of a block are all of its tokens but for comments at the ends. The block starts
after the token that stops at `base`, and the comments `before` belong to what stands before. -/
theorem Laid.tiles {source : Text} {tail before : List Token} {indent : Text} {cursor base : Nat}
    {outline : Outline} (laid : outline.Laid source tail indent cursor)
    (declared : outline.Declared)
    (placed : Token.Placed base (Code.flat (outline.pieces.flatMap Piece.tokens) ++ tail))
    (visible : Token.Visible (Code.flat (outline.pieces.flatMap Piece.tokens) ++ tail))
    (comments : before <+: Code.following tail outline.pieces)
    (start : cursor = base + Text.byteSize (Token.spell before)) :
    outline.Tiles cursor ∧
      Code.flat (outline.pieces.flatMap Piece.tokens) ++ tail =
        before ++ (outline.tokens ++ Code.commentsFrom (outline.stopFrom cursor) tail) ∧
      outline.stopFrom cursor = cursor + Text.byteSize (Token.spell outline.tokens) := by
  induction outline generalizing tail before indent cursor base with
  | nil =>
      obtain ⟨after, rfl⟩ := comments
      have placedTail : Token.Placed base (before ++ after) := placed
      have visibleTail : Token.Visible (before ++ after) := visible
      refine ⟨trivial, ?_, rfl⟩
      rw [stopFrom, start,
        Code.commentsFrom_of_placed placedTail (Token.Visible.append.mp visibleTail).1]
      rfl
  | leaf site node rest ih =>
      obtain ⟨siteLaid, laidRest⟩ := laid
      simp only [pieces, List.flatMap_cons, Code.flat_append, List.append_assoc] at placed visible
      obtain ⟨_, flattened, tiles, trail, stop⟩ := siteLaid.tiles placed visible comments start
      obtain ⟨tilesRest, joined, stopRest⟩ := ih laidRest declared
        (Token.placed_append.mp placed).2 (Token.Visible.append.mp visible).2 trail stop
      refine ⟨⟨tiles, tilesRest⟩, ?_, ?_⟩
      · rw [pieces, List.flatMap_cons, Code.flat_append, List.append_assoc, joined, flattened,
          tokens, Site.tokens, stopFrom]
        simp only [List.append_assoc]
      · rw [stopFrom, stopRest, tiles.stop, tokens]
        simp only [Token.spell_append, Text.byteSize_append]
        omega
  | type site shape members rest ihMembers ihRest =>
      obtain ⟨siteLaid, closed, cut, laidMembers, laidRest⟩ := laid
      obtain ⟨declares, declaredMembers, declaredRest⟩ := declared
      obtain ⟨layout⟩ := ClassLayout.exists_of_declares declares
      simp only [pieces, List.flatMap_cons, Code.flat_append, List.append_assoc] at placed visible
      obtain ⟨lead, flattened, tiles, trail, stop⟩ := siteLaid.tiles placed visible comments start
      obtain ⟨tilesRest, joined, stopRest⟩ := ihRest laidRest declaredRest
        (Token.placed_append.mp placed).2 (Token.Visible.append.mp visible).2 trail stop
      -- the members are what stands between the braces
      have inside : members.pieces.flatMap Piece.tokens = shape.inside := by
        rw [← cut]
        exact Code.flatMap_pieces closed
      have placedPiece := (Token.placed_append.mp placed).1
      have placedBody := (layout.opening_stop placedPiece).2
      have visibleBody := layout.visible_inside (Token.Visible.append.mp visible).1
      have bodyStart := ClassLayout.bodyStart_eq inside placedBody rfl
      rw [← inside] at placedBody visibleBody
      obtain ⟨tilesMembers, joinedMembers, stopMembers⟩ := ihMembers laidMembers declaredMembers
        placedBody visibleBody
        (by rw [openingComments_eq inside]; exact Code.sameLine_prefix _) bodyStart
      have body := layout.bodyTiles inside placedPiece start lead joinedMembers stopMembers
      refine ⟨⟨tiles, body, tilesMembers, tilesRest⟩, ?_, ?_⟩
      · rw [pieces, List.flatMap_cons, Code.flat_append, List.append_assoc, joined, flattened,
          tokens, Site.tokens, stopFrom]
        simp only [List.append_assoc]
      · rw [stopFrom, stopRest, tiles.stop, tokens]
        simp only [Token.spell_append, Text.byteSize_append]
        omega

end Outline

theorem Token.Chain.visible {tokens : List Token} {tail : Text} (chain : Token.Chain tokens tail) :
    Token.Visible tokens := by
  induction tokens with
  | nil => exact fun _ listed => absurd listed List.not_mem_nil
  | cons token rest ih =>
      intro other listed
      rcases List.mem_cons.mp listed with rfl | later
      · exact chain.2.1.ne_nil
      · exact ih chain.2.2 other later

/-- A source that was parsed: its tokens, and the outline of its declarations. -/
structure ParsedUnit (source : Text) (tree : SyntaxTree) where
  tokens : List Token
  blank : Text
  outline : Outline
  lexed : lexAll source = ⟨tokens, blank, none⟩
  chain : Token.Chain tokens blank
  isBlank : blank.Blank
  placed : Token.Placed 0 tokens
  spelled : source = Token.spell tokens ++ blank
  closed : (Code.pieces Code.declarationRule (Code.ofTokens tokens).tokens).unclosed = none
  pieces : (Code.pieces Code.declarationRule (Code.ofTokens tokens).tokens).pieces = outline.pieces
  adds : Code.AddsUnit source { source } 0 (Code.ofTokens tokens).tail tree outline
  tiles : outline.Tiles 0
  joined : tokens = outline.tokens ++
    Code.commentsFrom (outline.stopFrom 0) (Code.ofTokens tokens).tail

namespace ParsedUnit

/-- What can be parsed has an outline. -/
theorem exists_of_parse {source : Text} {tree : SyntaxTree} (parsed : parse source = .ok tree) :
    Nonempty (ParsedUnit source tree) := by
  unfold parse Code.read lex at parsed
  dsimp only at parsed
  cases failure : (lexAll source).failure with
  | some error =>
      rw [failure] at parsed
      cases parsed
  | none =>
      rw [failure] at parsed
      dsimp only [Except.map] at parsed
      obtain ⟨closed, outline, pieces, adds⟩ := Code.exists_outline_of_addDeclarations parsed
      obtain ⟨chain, isBlank, placed⟩ := chain_of_lexFrom 0 source failure
      have spelled := spell_lexFrom 0 source failure
      have code := Code.flatMap_pieces closed
      rw [← pieces] at code
      have flattened := Code.flat_ofTokens (lexAll source).tokens
      obtain ⟨tiles, joined, _⟩ := adds.laid.tiles adds.shaped.declared
        (by rw [code, flattened]; exact placed) (by rw [code, flattened]; exact chain.visible)
        List.nil_prefix rfl
      rw [code, flattened, List.nil_append] at joined
      have lexed : lexAll source = ⟨(lexAll source).tokens, (lexAll source).tail, none⟩ := by
        rw [← failure]
      exact ⟨⟨(lexAll source).tokens, (lexAll source).tail, outline, lexed, chain, isBlank, placed,
        spelled.symm, closed, pieces.symm, adds, tiles, joined⟩⟩

theorem lex_source {source : Text} {tree : SyntaxTree} (unit : ParsedUnit source tree) :
    lex source = .ok unit.tokens := by
  rw [lex, unit.lexed]

/-- The code of the source is its declarations. -/
theorem code_eq {source : Text} {tree : SyntaxTree} (unit : ParsedUnit source tree) :
    unit.outline.pieces.flatMap Piece.tokens = (Code.ofTokens unit.tokens).tokens := by
  rw [← unit.pieces]
  exact Code.flatMap_pieces unit.closed

end ParsedUnit

end JavaRecords
