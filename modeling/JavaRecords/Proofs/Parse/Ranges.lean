import JavaRecords.Proofs.Conversion.Code
import JavaRecords.Proofs.Parse.Forest

set_option autoImplicit false

namespace JavaRecords

namespace Span

/-- The spans stand one after the other, from `start` to `stop`. -/
def Tiles (start stop : Nat) : List Span → Prop
  | [] => start = stop
  | span :: rest => span.start = start ∧ span.Valid ∧ Tiles span.stop stop rest

theorem Tiles.bounds {start stop : Nat} {spans : List Span} (tiles : Tiles start stop spans) :
    start ≤ stop ∧ ∀ span ∈ spans, start ≤ span.start ∧ span.stop ≤ stop := by
  induction spans generalizing start with
  | nil => exact ⟨Nat.le_of_eq tiles, fun _ listed => absurd listed List.not_mem_nil⟩
  | cons first rest ih =>
      obtain ⟨rfl, valid, others⟩ := tiles
      obtain ⟨ordered, inside⟩ := ih others
      have low : first.start ≤ first.stop := valid
      refine ⟨Nat.le_trans low ordered, fun span listed => ?_⟩
      rcases List.mem_cons.mp listed with rfl | later
      · exact ⟨Nat.le_refl _, ordered⟩
      · exact ⟨Nat.le_trans low (inside span later).1, (inside span later).2⟩

/-- Spans that stand one after the other have no offset in common. -/
theorem Tiles.unique {start stop offset : Nat} {ids : List NodeId} {spanOf : NodeId → Span}
    (tiles : Tiles start stop (ids.map spanOf)) {id other : NodeId} (listed : id ∈ ids)
    (listedOther : other ∈ ids) (covers : (spanOf id).contains offset = true)
    (coversOther : (spanOf other).contains offset = true) : id = other := by
  simp only [contains, Bool.and_eq_true, decide_eq_true_eq] at covers coversOther
  induction ids generalizing start with
  | nil => cases listed
  | cons first rest ih =>
      obtain ⟨_, _, others⟩ := tiles
      have behind : ∀ later ∈ rest, (spanOf first).stop ≤ (spanOf later).start := fun later among =>
        (others.bounds.2 _ (List.mem_map_of_mem among)).1
      rcases List.mem_cons.mp listed with rfl | later <;>
        rcases List.mem_cons.mp listedOther with rfl | laterOther
      · rfl
      · have := behind other laterOther
        omega
      · have := behind id later
        omega
      · exact ih others later laterOther

end Span

/-- An excerpt has the text of its range, which lies within its extent. -/
structure Excerpt.Matches (excerpt : Excerpt) (source : Text) : Prop where
  text : Text.slice? source excerpt.range.start excerpt.range.stop = some excerpt.text
  range : excerpt.range.Valid
  extent : excerpt.extent.containsSpan excerpt.range = true

/-- The braces of the body of a class, among the tokens of its source. The tokens of the class that
are not comments are what stands before the keyword, the keyword, the name, the type parameters, the
clauses and the body: its opening brace is the first brace after the type parameters, and its
closing brace is the last token. -/
structure ClassDecl.Braces (decl : ClassDecl) (tokens : List Token) (opening closing : Token) :
    Prop where
  tokens : ∃ header keyword name params clauses inside,
    (Token.between tokens decl.source.range.start decl.source.range.stop).filter
        (fun token => !token.isComment) =
      header ++ keyword :: name :: (params ++ (clauses ++ opening :: (inside ++ [closing]))) ∧
    keyword.start = decl.source.range.start + Text.byteSize decl.headerPrefix ∧
    keyword.isWord "class".toList = true ∧ name.text = decl.name ∧
    params.map Token.text = Text.code (decl.typeParams.getD []) ∧
    ∀ token ∈ clauses, token.isPunct '{' = false
  opening : opening.isPunct '{' = true
  closing : closing.isPunct '}' = true

namespace SyntaxTree

/-- The bytes that belong to a declaration. -/
def extentOf (tree : SyntaxTree) (id : NodeId) : Span :=
  (((tree.node? id).bind Node.source?).map Excerpt.extent).getD ⟨0, 0⟩

def InOneOf (tree : SyntaxTree) (ids : List NodeId) (token : Token) : Prop :=
  ∃! id, id ∈ ids ∧ (tree.rangeOf id).containsSpan token.span = true

/-- The members of a class stand one after the other between its braces, and so do the tokens
there. -/
structure TilesBody (tree : SyntaxTree) (tokens : List Token) (members : List NodeId)
    (opening closing : Token) : Prop where
  extents : ∃ start stop, opening.stop ≤ start ∧ stop ≤ closing.start ∧
    Span.Tiles start stop (members.map tree.extentOf)
  items : ∀ token ∈ tokens, token.isComment = false → opening.stop ≤ token.start →
    token.stop ≤ closing.start → tree.InOneOf members token

/-- The nodes of a tree tile its source. -/
structure Tiled (tree : SyntaxTree) (tokens : List Token) : Prop where
  nodes : ∀ id node, tree.node? id = some node →
    ∃ excerpt, node.source? = some excerpt ∧ excerpt.Matches tree.source
  extents : ∃ stop, Span.Tiles 0 stop (tree.topLevel.map tree.extentOf)
  items : ∀ token ∈ tokens, token.isComment = false → tree.InOneOf tree.topLevel token
  bodies : ∀ id decl, tree.class? id = some decl → ∃ opening closing,
    decl.Braces tokens opening closing ∧ tree.TilesBody tokens decl.members opening closing

theorem extentOf_eq {tree : SyntaxTree} {id : NodeId} {node : Node} {source : Excerpt}
    (found : tree.node? id = some node) (same : node.source? = some source) :
    tree.extentOf id = source.extent := by
  rw [extentOf, found, Option.bind_some, same]
  rfl

end SyntaxTree

namespace Code

theorem filter_bare {code : List CodeToken} (bound : Bound code) :
    (bare code).filter (fun token => !token.isComment) = code.map CodeToken.token := by
  cases code with
  | nil => rfl
  | cons first rest =>
      obtain ⟨here, later⟩ := Bound.cons.mp bound
      rw [bare, List.filter_cons, filter_flat later]
      simp [here.token]

theorem code_text {code : List CodeToken} {tail : Text} (chain : Token.Chain (run code) tail)
    (bound : Bound code) : Text.code (text code) = (code.map CodeToken.token).map Token.text := by
  rw [← Text.map_text_words, words_text chain bound]
  cases code with
  | nil => rfl
  | cons first rest => simp [words, CodeToken.word, CodeToken.text, Function.comp_def]

end Code

namespace Site

variable {site : Site} {offset : Nat}

theorem Tiles.matches {source blank : Text} {tokens before after : List Token}
    (tiles : site.Tiles (Text.byteSize (Token.spell before)))
    (split : tokens = before ++ (site.tokens ++ after))
    (spelled : source = Token.spell tokens ++ blank)
    (text : Text) : (site.placed text).source.Matches source := by
  have bare : Token.spell (Code.bare site.piece.tokens) =
      site.piece.first.token.space ++ site.piece.text := by
    rw [Piece.tokens, Code.spell_bare, Code.spell_run]
    rfl
  have last := tiles.last
  have stop := tiles.stop
  have start := tiles.start
  rw [bare, Text.byteSize_append] at last
  rw [Site.tokens, Token.spell_append, Token.spell_append, bare] at stop
  simp only [Text.byteSize_append] at stop
  have cut : source =
      (Token.spell before ++ (Token.spell site.lead ++ site.piece.first.token.space)) ++
        site.piece.text ++ (Token.spell site.trail ++ (Token.spell after ++ blank)) := by
    rw [spelled, split, Site.tokens]
    simp only [Token.spell_append, bare, List.append_assoc]
  refine ⟨?_, ?_, ?_⟩
  · have slice := Text.slice?_append
      (Token.spell before ++ (Token.spell site.lead ++ site.piece.first.token.space))
      site.piece.text (Token.spell site.trail ++ (Token.spell after ++ blank))
    rw [← cut] at slice
    change Text.slice? source site.piece.first.start site.piece.last.stop = some site.piece.text
    rw [start, last, ← slice]
    simp only [Text.byteSize_append, Nat.add_assoc]
  · change site.piece.first.start ≤ site.piece.last.stop
    omega
  · have cursor := tiles.cursor
    simp only [Span.containsSpan, Bool.and_eq_true, decide_eq_true_eq]
    change site.cursor ≤ site.piece.first.start ∧ site.piece.last.stop ≤ site.stop
    omega

/-- The tokens of a declaration that are not comments stand in its range. -/
theorem Tiles.contains {token : Token} (tiles : site.Tiles offset)
    (placed : Token.Placed offset site.tokens) (listed : token ∈ Code.bare site.piece.tokens) :
    (⟨site.piece.first.start, site.piece.last.stop⟩ : Span).containsSpan token.span = true := by
  rw [Site.tokens] at placed
  obtain ⟨placedBare, _⟩ := Token.placed_append.mp (Token.placed_append.mp placed).2
  have inside := placedBare.within listed
  rw [← tiles.last] at inside
  have first : site.piece.first.start ≤ token.start := by
    obtain ⟨_, placedRest⟩ := Token.placed_cons.mp placedBare
    rcases List.mem_cons.mp listed with rfl | later
    · exact Nat.le_refl _
    · exact Nat.le_trans site.piece.first.token.start_le_stop (placedRest.within later).1
  rw [Span.containsSpan, Bool.and_eq_true, decide_eq_true_eq, decide_eq_true_eq]
  exact ⟨first, inside.2⟩

end Site

namespace Outline

variable {source : Text} {tokens : List Token} {tree : SyntaxTree} {outline : Outline}
  {offset : Nat}

/-- The extents of declarations stand one after the other. -/
theorem Among.extents (among : outline.Among source tokens tree) (tiles : outline.Tiles offset) :
    Span.Tiles offset (outline.stopFrom offset) (outline.ids.map tree.extentOf) := by
  have step : ∀ {site : Site} {rest : Outline} {offset : Nat}, site.Tiles offset →
      tree.extentOf site.id = ⟨site.cursor, site.stop⟩ →
      Span.Tiles site.stop (rest.stopFrom site.stop) (rest.ids.map tree.extentOf) →
      Span.Tiles offset (rest.stopFrom site.stop)
        (tree.extentOf site.id :: rest.ids.map tree.extentOf) := by
    intro site rest offset siteTiles extent others
    rw [extent]
    refine ⟨siteTiles.cursor, ?_, others⟩
    change site.cursor ≤ site.stop
    rw [siteTiles.cursor, siteTiles.stop]
    exact Nat.le_add_right _ _
  induction outline generalizing offset with
  | nil => rfl
  | leaf site node rest ih =>
      exact step tiles.1 (SyntaxTree.extentOf_eq among.stands.1 among.plain.source?_eq)
        (ih among.after_leaf tiles.2)
  | type site shape members rest _ ih =>
      obtain ⟨package, found⟩ := among.stands.1
      exact step tiles.1 (SyntaxTree.extentOf_eq found rfl) (ih among.after_type tiles.2.2.2)

theorem Among.exists_range (among : outline.Among source tokens tree) (tiles : outline.Tiles offset)
    (placed : Token.Placed offset outline.tokens) {token : Token} (listed : token ∈ outline.tokens)
    (isCode : token.isComment = false) :
    ∃ id ∈ outline.ids, (tree.rangeOf id).containsSpan token.span = true := by
  have here : ∀ {site : Site} {trivia : Trivia} {offset : Nat}, site.Tiles offset →
      SiteReady tree.printing site trivia → Token.Placed offset site.tokens → token ∈ site.tokens →
      (⟨site.piece.first.start, site.piece.last.stop⟩ : Span).containsSpan token.span = true := by
    intro site trivia offset siteTiles ready placedSite own
    refine siteTiles.contains placedSite ?_
    rw [Site.tokens, List.mem_append, List.mem_append] at own
    rcases own with lead | bare | trail
    · rw [ready.lead token lead] at isCode
      cases isCode
    · exact bare
    · rw [ready.trail token trail] at isCode
      cases isCode
  induction outline generalizing offset with
  | nil => cases listed
  | leaf site node rest ih =>
      obtain ⟨placedSite, placedRest⟩ := Token.placed_append.mp placed
      rcases List.mem_append.mp listed with own | later
      · obtain ⟨trivia, ready⟩ := among.ready.1
        refine ⟨site.id, List.mem_cons_self, ?_⟩
        rw [SyntaxTree.rangeOf_eq among.stands.1 among.plain.source?_eq]
        exact here tiles.1 ready placedSite own
      · rw [← tiles.1.stop] at placedRest
        obtain ⟨id, inRest, contains⟩ := ih among.after_leaf tiles.2 placedRest later
        exact ⟨id, List.mem_cons_of_mem _ inRest, contains⟩
  | type site shape members rest _ ih =>
      obtain ⟨placedSite, placedRest⟩ := Token.placed_append.mp placed
      rcases List.mem_append.mp listed with own | later
      · obtain ⟨trivia, ready⟩ := among.ready.1
        obtain ⟨package, found⟩ := among.stands.1
        refine ⟨site.id, List.mem_cons_self, ?_⟩
        rw [SyntaxTree.rangeOf_eq found rfl]
        exact here tiles.1 ready placedSite own
      · rw [← tiles.1.stop] at placedRest
        obtain ⟨id, inRest, contains⟩ := ih among.after_type tiles.2.2.2 placedRest later
        exact ⟨id, List.mem_cons_of_mem _ inRest, contains⟩

end Outline

namespace ClassLayout

variable {site : Site} {shape : ClassShape}

/-- The keyword of a class stands after the text in front of it. -/
theorem keyword_start {offset : Nat} (layout : ClassLayout site.piece shape)
    (placed : Token.Placed offset (Code.bare site.piece.tokens)) :
    layout.keyword.start = site.piece.first.start + Text.byteSize shape.headerPrefix := by
  have split := layout.tokens
  rw [layout.headerPrefix]
  cases taken : layout.taken with
  | nil =>
      rw [taken, List.nil_append, Piece.tokens] at split
      rw [(List.cons.inj split).1]
      rfl
  | cons first others =>
      rw [taken, List.cons_append, Piece.tokens] at split
      have bare : Code.bare site.piece.tokens = first.token :: (Code.flat others ++
          layout.keyword.comments) ++ layout.keyword.token :: Code.flat (layout.name ::
          (layout.params ++
            (shape.clauses ++ shape.opening :: (shape.inside ++ [shape.closing])))) := by
        rw [Piece.tokens, split]
        simp [Code.bare]
      rw [bare] at placed
      obtain ⟨front, back⟩ := Token.placed_append.mp placed
      obtain ⟨keywordStart, _⟩ := Token.placed_cons.mp back
      obtain ⟨firstStart, _⟩ := Token.placed_cons.mp front
      have start : site.piece.first.start = first.token.start := by
        rw [(List.cons.inj split).1]
        rfl
      have written : Code.headerPrefix (first :: others) (some layout.keyword) =
          first.text ++ Token.spell (Code.flat others) ++ layout.keyword.lead := by
        rw [Code.spell_flat]
        rfl
      rw [written, start, firstStart, CodeToken.start, keywordStart]
      simp only [Token.spell_cons, Token.spell_append, Text.byteSize_append, CodeToken.text,
        CodeToken.lead]
      omega

end ClassLayout

/-- A token that starts behind the tokens in front and stops before a later one is one of those
between them. -/
theorem Token.mem_middle {front middle back : List Token} {closing token : Token}
    (placed : Placed 0 (front ++ (middle ++ closing :: back)))
    (visible : Visible (front ++ (middle ++ closing :: back)))
    (listed : token ∈ front ++ (middle ++ closing :: back))
    (low : Text.byteSize (spell front) ≤ token.start) (high : token.stop ≤ closing.start) :
    token ∈ middle := by
  obtain ⟨placedFront, placedRest⟩ := placed_append.mp placed
  obtain ⟨_, placedBack⟩ := placed_append.mp placedRest
  have positive := Text.byteSize_pos_of_ne_nil _ (visible token listed)
  have stop : token.stop = token.start + Text.byteSize token.text := rfl
  rcases List.mem_append.mp listed with inFront | behind
  · have within := (placedFront.within inFront).2
    omega
  rcases List.mem_append.mp behind with inside | inBack
  · exact inside
  rcases List.mem_cons.mp inBack with rfl | later
  · omega
  · have within := ((placed_cons.mp placedBack).2.within later).1
    have := closing.start_le_stop
    omega

theorem ClassLayout.getLast?_front {site : Site} {shape : ClassShape}
    (layout : ClassLayout site.piece shape) :
    (Code.bare (site.front shape)).getLast? = some shape.opening.token := by
  have final : site.front shape = (layout.taken ++ layout.keyword :: layout.name ::
      (layout.params ++ shape.clauses)) ++ [shape.opening] := by
    rw [layout.front_eq]
    simp
  have bare := @Code.bare_append (layout.taken ++ layout.keyword :: layout.name ::
    (layout.params ++ shape.clauses)) (by simp) [shape.opening]
  rw [Code.flat_cons, Code.flat_nil, List.append_cons, List.append_nil, ← List.append_assoc] at bare
  rw [final, bare, List.getLast?_concat]

namespace Outline.ClassAmong

variable {source blank : Text} {tokens : List Token} {tree : SyntaxTree} {site : Site}
  {shape : ClassShape} {members : Outline}

/-- The code of a class is its header and its body in braces, and its keyword stands after the text
in front of it. -/
theorem code_of_layout (isClass : ClassAmong source tokens tree site shape members)
    (located : Token.Located tokens 0 0 (Text.byteSize source) tokens)
    (layout : ClassLayout site.piece shape) :
    (Token.between tokens site.piece.first.start site.piece.last.stop).filter
        (fun token => !token.isComment) =
      layout.taken.map CodeToken.token ++ layout.keyword.token :: layout.name.token ::
        (layout.params.map CodeToken.token ++ (shape.clauses.map CodeToken.token ++
          shape.opening.token :: (shape.inside.map CodeToken.token ++ [shape.closing.token]))) ∧
      layout.keyword.start = site.piece.first.start + Text.byteSize shape.headerPrefix := by
  obtain ⟨trivia, ready⟩ := isClass.ready
  obtain ⟨before, after, split, tiles, _, _⟩ := isClass.placed
  have own : Token.Located tokens 0 0 (Text.byteSize source)
    (before ++ (site.tokens ++ after)) := by
    rw [← split]
    exact located
  obtain ⟨_, inRange, _⟩ := Outline.located_site own (by rw [Nat.zero_add]; exact tiles)
  have layoutTokens := congrArg (List.map CodeToken.token) layout.tokens
  refine ⟨?_, layout.keyword_start inRange.placed⟩
  rw [inRange.tokens, Code.filter_bare ready.bound, layoutTokens]
  simp only [List.map_append, List.map_cons, List.map_nil]

theorem braces (isClass : ClassAmong source tokens tree site shape members)
    (located : Token.Located tokens 0 0 (Text.byteSize source) tokens)
    (chain : Token.Chain tokens blank) (package : Option Text) (ids : List NodeId) :
    (shape.decl package ids (site.placed source).source).Braces tokens shape.opening.token
      shape.closing.token := by
  obtain ⟨layout⟩ := ClassLayout.exists_of_declares isClass.declares
  obtain ⟨trivia, ready⟩ := isClass.ready
  obtain ⟨code, keywordStart⟩ := isClass.code_of_layout located layout
  refine ⟨⟨layout.taken.map CodeToken.token, layout.keyword.token, layout.name.token,
    layout.params.map CodeToken.token, shape.clauses.map CodeToken.token,
    shape.inside.map CodeToken.token, code, keywordStart, layout.isClass,
    layout.nameText.symm, ?_, ?_⟩, layout.opening, layout.closing⟩
  · rw [← Code.flat_ofTokens tokens, Token.chain_append] at chain
    obtain ⟨rest, chainParams⟩ :=
      Code.chain_of_infix chain.1 (layout.params_infix.trans isClass.code)
    have bound := ready.bound
    change _ = Text.code (shape.typeParams.getD [])
    rcases layout.typeParams with ⟨absent, none⟩ | ⟨present, _⟩
    · rw [absent, none, Option.getD_none, ← Text.map_text_words, Text.words_nil]
      rfl
    · rw [present, Option.getD_some, Code.code_text (Code.chain_run chainParams)
        (bound.of_infix layout.params_infix)]
  · intro token listed
    obtain ⟨code, isClause, rfl⟩ := List.mem_map.mp listed
    exact layout.clauses code isClause

theorem tilesBody (isClass : ClassAmong source tokens tree site shape members)
    (placed : Token.Placed 0 tokens) (visible : Token.Visible tokens) :
    (∃ start stop, shape.opening.stop ≤ start ∧ stop ≤ shape.closing.start ∧
      Span.Tiles start stop (members.ids.map tree.extentOf)) ∧
    ∀ token ∈ tokens, token.isComment = false → shape.opening.stop ≤ token.start →
      token.stop ≤ shape.closing.start →
        ∃ id ∈ members.ids, (tree.rangeOf id).containsSpan token.span = true := by
  obtain ⟨layout⟩ := ClassLayout.exists_of_declares isClass.declares
  obtain ⟨trivia, ready⟩ := isClass.ready
  obtain ⟨before, after, split, tiles, body, memberTiles⟩ := isClass.placed
  obtain ⟨boundFront, openings, danglings⟩ := body.bound ready.bound
  let front := before ++ (site.lead ++ Code.bare (site.front shape))
  let middle := Code.openingComments shape ++ (members.tokens ++ members.dangling shape)
  have whole : tokens = front ++ (middle ++ shape.closing.token :: (site.trail ++ after)) := by
    rw [split, Site.tokens, body.bare_eq]
    simp only [front, middle, List.append_assoc, List.cons_append, List.nil_append]
  rw [whole] at placed
  obtain ⟨placedFront, placedBody⟩ := Token.placed_append.mp placed
  obtain ⟨placedMiddle, placedBack⟩ := Token.placed_append.mp placedBody
  obtain ⟨_, placedMore⟩ := Token.placed_append.mp placedMiddle
  obtain ⟨placedMembers, _⟩ := Token.placed_append.mp placedMore
  have opening : shape.opening.stop = Text.byteSize (Token.spell front) := by
    have isLast : front.getLast? = some shape.opening.token := by
      have last := layout.getLast?_front
      simp only [front, List.getLast?_append, last, Option.some_or]
    have stop := Token.stop_of_placed placedFront isLast
    rw [Nat.zero_add] at stop
    exact stop
  have start : Code.bodyStart shape = 0 + Text.byteSize (Token.spell front) +
      Text.byteSize (Token.spell (Code.openingComments shape)) := by
    rw [body.start]
    simp only [front, Token.spell_append, Text.byteSize_append]
    omega
  rw [← start] at placedMembers
  have closing := (Token.placed_cons.mp placedBack).1
  simp only [middle, Token.spell_append, Text.byteSize_append] at closing
  change shape.closing.start = _ at closing
  refine ⟨⟨Code.bodyStart shape, members.stopFrom (Code.bodyStart shape), by omega, ?_,
    isClass.among.extents memberTiles⟩, fun token listed isCode low high => ?_⟩
  · rw [body.stop]
    omega
  · refine isClass.among.exists_range memberTiles placedMembers ?_ isCode
    rw [opening] at low
    rw [whole] at listed visible
    have inside := Token.mem_middle placed visible listed low high
    rcases List.mem_append.mp inside with comment | inside
    · rw [openings token comment] at isCode
      cases isCode
    rcases List.mem_append.mp inside with member | comment
    · exact member
    · rw [danglings token comment] at isCode
      cases isCode

end Outline.ClassAmong

namespace ParsedUnit

variable {source : Text} {tree : SyntaxTree} (unit : ParsedUnit source tree)

include unit

/-- Every node has the text of its range. -/
theorem exists_excerpt {id : NodeId} {node : Node} (found : tree.node? id = some node) :
    ∃ excerpt, node.source? = some excerpt ∧ excerpt.Matches source := by
  rcases unit.exists_declaration (by rw [found]; rfl) with
    ⟨site, own, rest, rfl, among⟩ | ⟨site, shape, members, rfl, isClass⟩
  · cases among.stands.1.symm.trans found
    obtain ⟨before, after, split, tiles⟩ := among.placed
    rw [Outline.tokens, List.append_assoc] at split
    exact ⟨_, among.plain.source?_eq, tiles.1.matches split unit.spelled source⟩
  · obtain ⟨package, present⟩ := isClass.present
    cases (SyntaxTree.node?_of_class? present).symm.trans found
    obtain ⟨before, after, split, tiles, _⟩ := isClass.placed
    exact ⟨_, rfl, tiles.matches split unit.spelled source⟩

/-- A token in the range of one of some declarations is in the range of no other. -/
theorem inOneOf {ids : List NodeId} {start stop : Nat} {token : Token}
    (tiles : Span.Tiles start stop (ids.map tree.extentOf))
    (known : ∀ id ∈ ids, (tree.node? id).isSome) (visible : token.text ≠ [])
    (inside : ∃ id ∈ ids, (tree.rangeOf id).containsSpan token.span = true) :
    tree.InOneOf ids token := by
  have covers : ∀ id ∈ ids, (tree.rangeOf id).containsSpan token.span = true →
      (tree.extentOf id).contains token.start = true := by
    intro id listed contains
    obtain ⟨node, found⟩ := Option.isSome_iff_exists.mp (known id listed)
    obtain ⟨excerpt, same, place⟩ := unit.exists_excerpt found
    have within := place.extent
    have positive := Text.byteSize_pos_of_ne_nil _ visible
    rw [SyntaxTree.rangeOf_eq found same] at contains
    rw [SyntaxTree.extentOf_eq found same]
    have size : token.stop = token.start + Text.byteSize token.text := rfl
    rw [Span.containsSpan, Bool.and_eq_true, decide_eq_true_eq,
      decide_eq_true_eq] at contains within
    rw [Span.contains, Bool.and_eq_true, decide_eq_true_eq, decide_eq_true_eq]
    have low : excerpt.range.start ≤ token.start := contains.1
    have high : token.stop ≤ excerpt.range.stop := contains.2
    omega
  obtain ⟨id, listed, contains⟩ := inside
  refine ⟨id, ⟨listed, contains⟩, ?_⟩
  rintro other ⟨listedOther, containsOther⟩
  exact tiles.unique listedOther listed (covers other listedOther containsOther)
    (covers id listed contains)

/-- The nodes tile the source. -/
theorem tiled : tree.Tiled unit.tokens where
  nodes id node found := by
    rw [unit.source_eq]
    exact unit.exists_excerpt found
  extents := by
    rw [unit.topLevel_eq]
    exact ⟨_, unit.among.extents unit.tiles⟩
  items token listed isCode := by
    have visible := unit.chain.visible token listed
    have placed := unit.placed
    rw [unit.joined] at listed placed
    rw [unit.topLevel_eq]
    refine unit.inOneOf (unit.among.extents unit.tiles)
      (fun id among => unit.adds.stands.node?_isSome among) visible ?_
    rcases List.mem_append.mp listed with inside | rest
    · exact unit.among.exists_range unit.tiles (Token.placed_append.mp placed).1 inside isCode
    · rw [unit.comments_rest token rest] at isCode
      cases isCode
  bodies id decl present := by
    obtain ⟨site, shape, members, rfl, isClass⟩ := unit.exists_class present
    obtain ⟨package, found⟩ := isClass.present
    cases found.symm.trans present
    obtain ⟨extents, inRanges⟩ := isClass.tilesBody unit.placed unit.chain.visible
    refine ⟨shape.opening.token, shape.closing.token,
      isClass.braces unit.located unit.chain package members.ids, extents, ?_⟩
    intro token listed isCode low high
    obtain ⟨start, stop, _, _, tiles⟩ := extents
    exact unit.inOneOf tiles (fun id among => isClass.among.stands.node?_isSome among)
      (unit.chain.visible token listed) (inRanges token listed isCode low high)

end ParsedUnit

/-- The tree of a parsed source is a forest whose nodes tile the source. -/
theorem SyntaxTree.tiled_of_parse {source : Text} {tree : SyntaxTree}
    (parsed : parse source = .ok tree) :
    tree.source = source ∧ tree.Forest ∧
      ∃ tokens, lex source = .ok tokens ∧ tree.Tiled tokens := by
  obtain ⟨unit⟩ := ParsedUnit.exists_of_parse parsed
  exact ⟨unit.source_eq, unit.forest, unit.tokens, unit.lex_source, unit.tiled⟩

/-- Two packages, an import, and a class with type parameters, comments and a member class. -/
def twoPackages : Text :=
  "package a;package b;import c;@D class P<T>{/*e*/int x;class Q{}}//f".toList

theorem SyntaxTree.twoPackages_tiled_of_parse :
    ∃ tree, parse twoPackages = .ok tree ∧ tree.unit.package = some 1 ∧ (tree.class? 5).isSome ∧
      (tree.source = twoPackages ∧ tree.Forest ∧
        ∃ tokens, lex twoPackages = .ok tokens ∧ tree.Tiled tokens) := by
  obtain ⟨tree, parsed, checked⟩ := exists_ok_of_any
    (show (parse twoPackages).toOption.any (fun tree =>
      tree.unit.package == some 1 && (tree.class? 5).isSome) = true by decide +kernel)
  obtain ⟨package, isClass⟩ := Bool.and_eq_true_iff.mp checked
  exact ⟨tree, parsed, eq_of_beq package, isClass, tiled_of_parse parsed⟩

end JavaRecords
