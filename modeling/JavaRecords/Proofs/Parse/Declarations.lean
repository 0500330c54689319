import JavaRecords.Proofs.Conversion.Ready
import JavaRecords.Proofs.Parse.Body

set_option autoImplicit false

namespace JavaRecords

namespace Outline

/-- The declarations are those of a unit, or members of one class, as their pieces say. -/
def ShapedSomewhere (source : Text) (outline : Outline) : Prop :=
  outline.UnitShaped source ∨ ∃ className position, outline.Shaped source className position

/-- Declarations of a source that stand one after the other, in the unit or in the body of a class.
-/
structure Among (source : Text) (tokens : List Token) (tree : SyntaxTree) (outline : Outline) :
    Prop where
  shaped : outline.ShapedSomewhere source
  laid : ∃ tail indent cursor, outline.Laid source tail indent cursor
  numbered : ∃ low high, outline.Numbered low high
  stands : outline.Stands source tree
  ready : outline.Ready tree.printing
  completes : ∀ piece ∈ outline.pieces, Code.Completes .fresh piece.tokens
  code : outline.pieces.flatMap Piece.tokens <:+: (Code.ofTokens tokens).tokens
  placed : ∃ before after, tokens = before ++ (outline.tokens ++ after) ∧
    outline.Tiles (Text.byteSize (Token.spell before))

variable {source : Text} {tokens : List Token} {tree : SyntaxTree} {site : Site} {node : Node}
  {shape : ClassShape} {members rest : Outline}

/-- The code of the first declaration is part of the code of the source. -/
theorem Among.first_infix {outline : Outline} (among : outline.Among source tokens tree)
    {piece : Piece} {others : List Piece} (first : outline.pieces = piece :: others) :
    piece.tokens <:+: (Code.ofTokens tokens).tokens := by
  have code := among.code
  rw [first, List.flatMap_cons] at code
  exact (List.prefix_append _ _).isInfix.trans code

/-- A declaration that is not a class with a body is printed as it stands. -/
theorem Among.plain (among : (leaf site node rest).Among source tokens tree) :
    Plain (site.placed source).source node := by
  rcases among.shaped with inUnit | ⟨_, _, inClass⟩
  · exact inUnit.1.plain
  · exact Code.plain_of_memberShape inClass.1

theorem Among.after_leaf (among : (leaf site node rest).Among source tokens tree) :
    rest.Among source tokens tree := by
  obtain ⟨shaped, ⟨tail, indent, cursor, laid⟩, ⟨low, high, numbered⟩, stands, ready,
    completes, code, before, after, split, tiles⟩ := among
  refine ⟨?_, ⟨tail, indent, site.stop, laid.2⟩, ⟨low + 1, high, numbered.2⟩, stands.2.2, ready.2,
    fun piece listed =>
    completes piece (List.mem_cons_of_mem _ listed), ?_, before ++ site.tokens, after, ?_, ?_⟩
  · rcases shaped with inUnit | ⟨className, position, inClass⟩
    · exact Or.inl inUnit.2
    · exact Or.inr ⟨className, position + 1, inClass.2⟩
  · rw [pieces, List.flatMap_cons] at code
    exact (List.suffix_append _ _).isInfix.trans code
  · rw [split, Outline.tokens]
    simp only [List.append_assoc]
  · have inside := tiles.2
    rw [tiles.1.stop] at inside
    rw [Token.spell_append, Text.byteSize_append]
    exact inside

structure ClassAmong (source : Text) (tokens : List Token) (tree : SyntaxTree) (site : Site)
    (shape : ClassShape) (members : Outline) : Prop where
  declares : Code.Declares site.piece shape
  shaped : members.Shaped source shape.name 0
  code : site.piece.tokens <:+: (Code.ofTokens tokens).tokens
  present : ∃ package, tree.class? site.id =
    some (shape.decl package members.ids (site.placed source).source)
  inside : members.pieces.flatMap Piece.tokens = shape.inside
  placed : ∃ before after, tokens = before ++ (site.tokens ++ after) ∧
    site.Tiles (Text.byteSize (Token.spell before)) ∧
    BodyTiles (Text.byteSize (Token.spell before)) site shape members ∧
    members.Tiles (Code.bodyStart shape)
  numbered : ∃ low, members.Numbered low site.id
  ready : ∃ trivia, SiteReady tree.printing site trivia
  among : members.Among source tokens tree

theorem ShapedSomewhere.type (shaped : (type site shape members rest).ShapedSomewhere source) :
    Code.Declares site.piece shape ∧ members.Shaped source shape.name 0 ∧
      rest.ShapedSomewhere source := by
  rcases shaped with inUnit | ⟨className, position, inClass⟩
  · exact ⟨inUnit.1.declares, inUnit.2.1, Or.inl inUnit.2.2⟩
  · exact ⟨inClass.1, inClass.2.1, Or.inr ⟨className, position + 1, inClass.2.2⟩⟩

theorem Among.after_type (among : (type site shape members rest).Among source tokens tree) :
    rest.Among source tokens tree := by
  obtain ⟨shaped, ⟨tail, indent, cursor, laid⟩, ⟨low, high, numbered⟩, stands, ready,
    completes, code, before, after, split, tiles⟩ := among
  refine ⟨shaped.type.2.2, ⟨tail, indent, site.stop, laid.2.2.2.2⟩,
    ⟨site.id + 1, high, numbered.2⟩, stands.2.2.2, ready.2.2.2.2,
    fun piece listed => completes piece (List.mem_cons_of_mem _ listed), ?_,
    before ++ site.tokens, after, ?_, ?_⟩
  · rw [pieces, List.flatMap_cons] at code
    exact (List.suffix_append _ _).isInfix.trans code
  · rw [split, Outline.tokens]
    simp only [List.append_assoc]
  · have inside := tiles.2.2.2
    rw [tiles.1.stop] at inside
    rw [Token.spell_append, Text.byteSize_append]
    exact inside

theorem Among.class (among : (type site shape members rest).Among source tokens tree) :
    ClassAmong source tokens tree site shape members := by
  have own := among.first_infix rfl
  obtain ⟨shaped, ⟨tail, indent, cursor, laid⟩, ⟨low, high, numbered⟩, stands, ready,
    completes, code, before, after, split, tiles⟩ := among
  obtain ⟨declares, shapedMembers, _⟩ := shaped.type
  obtain ⟨_, closed, memberPieces, laidMembers, _⟩ := laid
  obtain ⟨⟨package, found⟩, _, standsMembers, _⟩ := stands
  obtain ⟨siteTiles, body, memberTiles, _⟩ := tiles
  have inside : members.pieces.flatMap Piece.tokens = shape.inside := by
    rw [← memberPieces]
    exact Code.flatMap_pieces closed
  have within : members.pieces.flatMap Piece.tokens <:+: site.piece.tokens := by
    rw [inside, body.tokens]
    exact ⟨site.front shape, [shape.closing], by simp⟩
  refine ⟨declares, shapedMembers, own, ⟨package, SyntaxTree.class?_of_node? found⟩, inside, ?_,
    ⟨low, numbered.1⟩, ready.1, ?_⟩
  · refine ⟨before, rest.tokens ++ after, ?_, siteTiles, body, memberTiles⟩
    rw [split, Outline.tokens]
    simp only [List.append_assoc]
  · refine ⟨Or.inr ⟨_, _, shapedMembers⟩, ⟨_, _, _, laidMembers⟩, ⟨low, site.id, numbered.1⟩,
      standsMembers, ready.2.2.2.1, ?_,
      within.trans own, ?_⟩
    · rw [← memberPieces]
      exact (Code.cut_of_pieces closed).completes
    · -- the members stand after the comments on the line of the opening brace
      refine ⟨before ++ (site.lead ++ Code.bare (site.front shape) ++ Code.openingComments shape),
        members.dangling shape ++ [shape.closing.token] ++ site.trail ++ rest.tokens ++
          after, ?_, ?_⟩
      · rw [split, Outline.tokens, Site.tokens, body.bare_eq]
        simp only [List.append_assoc]
      · rw [Token.spell_append, Text.byteSize_append, ← body.start_eq]
        exact memberTiles

theorem Shaped.isMember {outline : Outline} {className : Text} {position : Nat}
    (shaped : outline.Shaped source className position) (stands : outline.Stands source tree) :
    ∀ id ∈ outline.ids, ∃ node, tree.node? id = some node ∧ node.isMember = true := by
  induction outline generalizing position with
  | nil => exact fun _ listed => absurd listed List.not_mem_nil
  | leaf site node rest ih =>
      intro id listed
      rcases List.mem_cons.mp listed with rfl | later
      · exact ⟨node, stands.1, Code.isMember_of_memberShape shaped.1⟩
      · exact ih shaped.2 stands.2.2 id later
  | type site shape members rest _ ih =>
      intro id listed
      rcases List.mem_cons.mp listed with rfl | later
      · obtain ⟨package, found⟩ := stands.1
        exact ⟨_, found, rfl⟩
      · exact ih shaped.2.2 stands.2.2.2 id later

theorem Numbered.sorted {outline : Outline} {low high : Nat}
    (numbered : outline.Numbered low high) :
    outline.ids.Pairwise (· < ·) := by
  induction outline generalizing low high with
  | nil => exact List.Pairwise.nil
  | leaf site node rest ih =>
      obtain ⟨rfl, numberedRest⟩ := numbered
      exact List.pairwise_cons.mpr
        ⟨fun later listed => (numberedRest.mem_ids listed).1, ih numberedRest⟩
  | type site shape members rest _ ih =>
      exact List.pairwise_cons.mpr
        ⟨fun later listed => (numbered.2.mem_ids listed).1, ih numbered.2⟩

theorem Among.exists_declaration {outline : Outline} {low high id : NodeId}
    (among : outline.Among source tokens tree) (numbered : outline.Numbered low high)
    (inside : low ≤ id ∧ id < high) :
    (∃ site node rest, site.id = id ∧ (leaf site node rest).Among source tokens tree) ∨
      ∃ site shape members, site.id = id ∧ ClassAmong source tokens tree site shape members := by
  induction outline generalizing low high with
  | nil =>
      have same : low = high := numbered
      exact absurd (Nat.lt_of_le_of_lt inside.1 inside.2) (by rw [same]; exact Nat.lt_irrefl _)
  | leaf site node rest ih =>
      obtain ⟨rfl, numberedRest⟩ := numbered
      by_cases same : site.id = id
      · exact Or.inl ⟨site, node, rest, same, among⟩
      · exact ih among.after_leaf numberedRest ⟨Nat.lt_of_le_of_ne inside.1 same, inside.2⟩
  | type site shape members rest ihMembers ihRest =>
      obtain ⟨numberedMembers, numberedRest⟩ := numbered
      rcases Nat.lt_trichotomy id site.id with before | same | behind
      · exact ihMembers among.class.among numberedMembers ⟨inside.1, before⟩
      · exact Or.inr ⟨site, shape, members, same.symm, among.class⟩
      · exact ihRest among.after_type numberedRest ⟨behind, inside.2⟩

end Outline

namespace ParsedUnit

variable {source : Text} {tree : SyntaxTree} (unit : ParsedUnit source tree)

include unit

theorem among : unit.outline.Among source unit.tokens tree where
  shaped := Or.inl unit.adds.shaped
  laid := ⟨_, _, _, unit.adds.laid⟩
  numbered := ⟨_, _, unit.numbered⟩
  stands := unit.adds.stands
  ready := unit.ready
  completes := by
    rw [← unit.pieces]
    exact (Code.cut_of_pieces unit.closed).completes
  code := by simp only [unit.code_eq, List.infix_rfl]
  placed := ⟨[], _, unit.joined, unit.tiles⟩

theorem exists_declaration {id : NodeId} (known : (tree.node? id).isSome) :
    (∃ site node rest, site.id = id ∧ (Outline.leaf site node rest).Among source unit.tokens tree) ∨
      ∃ site shape members, site.id = id ∧
        Outline.ClassAmong source unit.tokens tree site shape members :=
  unit.among.exists_declaration unit.numbered
    ⟨Nat.zero_le _, SyntaxTree.lt_of_node?_isSome known⟩

/-- Every class is a declaration of the source with a body. -/
theorem exists_class {id : NodeId} {decl : ClassDecl} (present : tree.class? id = some decl) :
    ∃ site shape members, site.id = id ∧
      Outline.ClassAmong source unit.tokens tree site shape members := by
  have known : (tree.node? id).isSome := by
    rw [SyntaxTree.node?_of_class? present]
    rfl
  rcases unit.exists_declaration known with ⟨site, node, rest, rfl, among⟩ | isClass
  · rw [among.plain.class?_eq_none among.stands.1] at present
    cases present
  · exact isClass

end ParsedUnit

end JavaRecords
