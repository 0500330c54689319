import JavaRecords.Parse.Unit
import JavaRecords.Proofs.Tree.Table

set_option autoImplicit false

namespace JavaRecords

structure Site where
  id : NodeId
  /-- Where the declaration before it ends. -/
  cursor : Nat
  piece : Piece
  /-- The comments between the piece and the next token. -/
  following : List Token
  /-- The indentation of a piece that does not start its line. -/
  indent : Text

namespace Site

def placed (site : Site) (source : Text) : Placed :=
  Code.place source site.cursor site.piece site.following site.indent

/-- The comments after the declaration on its last line. -/
def trail (site : Site) : List Token := Code.sameLine site.following

def stop (site : Site) : Nat := Code.endOf site.piece.last.stop site.trail

end Site

def ClassShape.decl (shape : ClassShape) (package : Option Text) (members : List NodeId)
    (source : Excerpt) : ClassDecl where
  name := shape.name
  typeParams := shape.typeParams
  modifiers := shape.modifiers
  headerPrefix := shape.headerPrefix
  superclass := Code.headerClause? "extends" shape.clauses
  interfaces := Code.headerClause? "implements" shape.clauses
  permits := Code.headerClause? "permits" shape.clauses
  package := package
  members := members
  source := source

/-- The comments of a class whose last member ends at `cursor`. -/
def ClassShape.trivia (shape : ClassShape) (placed : Placed) (cursor : Nat) : Trivia where
  leading := placed.leading ++ (shape.comments ++ Code.openingComments shape).map Comment.ofToken
  trailing := placed.trailing
  dangling := (Code.commentsFrom cursor shape.closing.comments).map Comment.ofToken

/-- Declarations in order. -/
inductive Outline where
  | nil
  | leaf (site : Site) (node : Node) (rest : Outline)
  | type (site : Site) (shape : ClassShape) (members rest : Outline)

def Code.Declares (piece : Piece) (shape : ClassShape) : Prop :=
  piece.isEmpty = false ∧ ∃ run, modifiers piece.tokens = .ok run ∧
    typeShape run piece.last = .ok (.classBody shape)

namespace Outline

def pieces : Outline → List Piece
  | nil => []
  | leaf site _ rest => site.piece :: rest.pieces
  | type site _ _ rest => site.piece :: rest.pieces

def ids : Outline → List NodeId
  | nil => []
  | leaf site _ rest => site.id :: rest.ids
  | type site _ _ rest => site.id :: rest.ids

/-- Where the last declaration ends. -/
def stopFrom (cursor : Nat) : Outline → Nat
  | nil => cursor
  | leaf site _ rest => rest.stopFrom site.stop
  | type site _ _ rest => rest.stopFrom site.stop

/-- The declarations have the ids from `low` on and before `high`, members before their class. -/
def Numbered (low high : Nat) : Outline → Prop
  | nil => low = high
  | leaf site _ rest => site.id = low ∧ rest.Numbered (low + 1) high
  | type site _ members rest => members.Numbered low site.id ∧ rest.Numbered (site.id + 1) high

/-- A declaration stands after the one before it, in a block that ends with the comments `tail`. -/
structure SiteLaid (tail : List Token) (indent : Text) (cursor : Nat) (site : Site)
    (rest : Outline) : Prop where
  cursor : site.cursor = cursor
  following : site.following = Code.following tail rest.pieces
  indent : site.indent = indent

/-- The declarations stand one after the other, and the members of a class are what its body is cut
into. -/
def Laid (source : Text) (tail : List Token) (indent : Text) (cursor : Nat) : Outline → Prop
  | nil => True
  | leaf site _ rest =>
      SiteLaid tail indent cursor site rest ∧ rest.Laid source tail indent site.stop
  | type site shape members rest =>
      SiteLaid tail indent cursor site rest ∧
      (Code.pieces Code.declarationRule shape.inside).unclosed = none ∧
      (Code.pieces Code.declarationRule shape.inside).pieces = members.pieces ∧
      members.Laid source shape.closing.comments
        ((site.placed source).source.indent ++ Code.indentUnit) (Code.bodyStart shape) ∧
      rest.Laid source tail indent site.stop

/-- The members of the class `className` are what their pieces declare, from the
`position`-th on. -/
def Shaped (source : Text) (className : Text) (position : Nat) : Outline → Prop
  | nil => True
  | leaf site node rest =>
      Code.memberShape className position site.piece (site.placed source).source =
        .ok (.node node) ∧
      rest.Shaped source className (position + 1)
  | type site shape members rest =>
      Code.Declares site.piece shape ∧ members.Shaped source shape.name 0 ∧
        rest.Shaped source className (position + 1)

def Commented (tree : SyntaxTree) (id : NodeId) (trivia : Trivia) : Prop :=
  ∀ found, tree.trivia.get? id = some found → found = trivia

/-- The comments that a tree has for a declaration. There is no entry without comments. -/
def Bears (tree : SyntaxTree) (id : NodeId) (trivia : Trivia) : Prop :=
  tree.trivia.get? id = if trivia.isEmpty then none else some trivia

theorem Bears.commented {tree : SyntaxTree} {id : NodeId} {trivia : Trivia}
    (bears : Bears tree id trivia) : Commented tree id trivia := by
  intro found present
  rw [bears] at present
  split at present <;> cases present
  rfl

def Stands (source : Text) (tree : SyntaxTree) : Outline → Prop
  | nil => True
  | leaf site node rest =>
      tree.node? site.id = some node ∧
      Bears tree site.id
        ⟨(site.placed source).leading, (site.placed source).trailing, []⟩ ∧
      rest.Stands source tree
  | type site shape members rest =>
      (∃ package, tree.node? site.id =
        some (.classDecl (shape.decl package members.ids (site.placed source).source))) ∧
      Bears tree site.id
        (shape.trivia (site.placed source) (members.stopFrom (Code.bodyStart shape))) ∧
      members.Stands source tree ∧ rest.Stands source tree

theorem Numbered.le {low high : Nat} {outline : Outline} (numbered : outline.Numbered low high) :
    low ≤ high := by
  induction outline generalizing low high with
  | nil => exact Nat.le_of_eq numbered
  | leaf site node rest ih =>
      have := ih numbered.2
      omega
  | type site shape members rest ihMembers ihRest =>
      have first := ihMembers numbered.1
      have second := ihRest numbered.2
      exact Nat.le_trans first (Nat.le_trans (Nat.le_succ _) second)

end Outline

namespace SyntaxTree

/-- A later tree keeps what an earlier one has. -/
structure Grows (tree later : SyntaxTree) : Prop where
  source : later.source = tree.source
  size : tree.nodes.size ≤ later.nodes.size
  node? : ∀ id, id < tree.nodes.size → later.node? id = tree.node? id
  trivia : ∀ id, id < tree.nodes.size → later.trivia.get? id = tree.trivia.get? id

theorem Grows.refl (tree : SyntaxTree) : Grows tree tree :=
  ⟨rfl, Nat.le_refl _, fun _ _ => rfl, fun _ _ => rfl⟩

theorem Grows.trans {first second third : SyntaxTree} (left : Grows first second)
    (right : Grows second third) : Grows first third where
  source := right.source.trans left.source
  size := Nat.le_trans left.size right.size
  node? id known :=
    (right.node? id (Nat.lt_of_lt_of_le known left.size)).trans (left.node? id known)
  trivia id known :=
    (right.trivia id (Nat.lt_of_lt_of_le known left.size)).trans (left.trivia id known)

theorem grows_add (tree : SyntaxTree) (node : Node) (trivia : Trivia) :
    Grows tree (tree.add node trivia) where
  source := rfl
  size := by simp [add]
  node? id known := tree.node?_add_of_lt node trivia id known
  trivia id known := TriviaTable.get?_insert_of_ne _ (Nat.ne_of_lt known) _

theorem Grows.with_unit {tree later : SyntaxTree} (grows : tree.Grows later)
    (unit : CompilationUnit) : tree.Grows ({ later with unit } : SyntaxTree) :=
  ⟨grows.source, grows.size, grows.node?, grows.trivia⟩

/-- Only nodes have entries in the table of comments, and no entry is without comments. -/
structure Tidy (tree : SyntaxTree) : Prop where
  known : ∀ id trivia, tree.trivia.get? id = some trivia → id < tree.nodes.size
  filled : tree.trivia.Filled

theorem tidy_add {tree : SyntaxTree} (tidy : tree.Tidy) (node : Node) (trivia : Trivia) :
    (tree.add node trivia).Tidy where
  known id found present := by
    have size : (tree.add node trivia).nodes.size = tree.nodes.size + 1 := by simp [add]
    rw [size]
    rcases TriviaTable.get?_insert_eq_some present with ⟨rfl, _⟩ | ⟨_, earlier⟩
    · exact Nat.lt_succ_self _
    · exact Nat.lt_succ_of_lt (tidy.known id found earlier)
  filled := tidy.filled.insert _ _

theorem Tidy.get?_eq_none {tree : SyntaxTree} (tidy : tree.Tidy) {id : NodeId}
    (outside : tree.nodes.size ≤ id) : tree.trivia.get? id = none := by
  cases found : tree.trivia.get? id with
  | none => rfl
  | some trivia => exact absurd (tidy.known id trivia found) (Nat.not_lt.mpr outside)

theorem Tidy.with_unit {tree : SyntaxTree} (tidy : tree.Tidy) (unit : CompilationUnit) :
    ({ tree with unit } : SyntaxTree).Tidy :=
  ⟨tidy.known, tidy.filled⟩

theorem bears_add (tree : SyntaxTree) (node : Node) (trivia : Trivia) :
    Outline.Bears (tree.add node trivia) tree.nextId trivia :=
  TriviaTable.get?_insert_self tree.trivia tree.nextId trivia

end SyntaxTree

theorem Outline.Bears.mono {tree later : SyntaxTree} (grows : tree.Grows later) {id : NodeId}
    (known : id < tree.nodes.size) {trivia : Trivia} (bears : Bears tree id trivia) :
    Bears later id trivia :=
  (grows.trivia id known).trans bears

theorem Outline.Stands.mono {source : Text} {tree later : SyntaxTree} (grows : tree.Grows later)
    {outline : Outline} {low high : Nat} (numbered : outline.Numbered low high)
    (known : high ≤ tree.nodes.size) (stands : outline.Stands source tree) :
    outline.Stands source later := by
  induction outline generalizing low high with
  | nil => trivial
  | leaf site node rest ih =>
      obtain ⟨node, trivia, others⟩ := stands
      obtain ⟨rfl, numberedRest⟩ := numbered
      have inside : site.id < tree.nodes.size :=
        Nat.lt_of_lt_of_le (Nat.lt_of_lt_of_le (Nat.lt_succ_self _) numberedRest.le) known
      refine ⟨?_, trivia.mono grows inside, ih numberedRest known others⟩
      rw [grows.node? _ inside]
      exact node
  | type site shape members rest ihMembers ihRest =>
      obtain ⟨⟨package, node⟩, trivia, inner, others⟩ := stands
      obtain ⟨numberedMembers, numberedRest⟩ := numbered
      have inside : site.id < tree.nodes.size :=
        Nat.lt_of_lt_of_le (Nat.lt_of_lt_of_le (Nat.lt_succ_self _) numberedRest.le) known
      refine ⟨⟨package, ?_⟩, trivia.mono grows inside,
        ihMembers numberedMembers (Nat.le_of_lt inside) inner, ihRest numberedRest known others⟩
      rw [grows.node? _ inside]
      exact node

namespace Code

theorem memberShape_eq_classBody_iff (className : Text) (position : Nat) (piece : Piece)
    (source : Excerpt) (shape : ClassShape) :
    memberShape className position piece source = .ok (.classBody shape) ↔
      Declares piece shape := by
  unfold memberShape Declares
  cases empty : piece.isEmpty with
  | true => simp
  | false =>
      cases read : modifiers piece.tokens with
      | error error => simp
      | ok run =>
          cases found : typeKeyword? run.rest with
          | none =>
              have noShape : typeShape run piece.last = .ok (.textual .unknown none) := by
                simp only [typeShape, found]
              cases node : memberNode className position run piece.last source <;>
                simp [noShape, found, node, Except.map]
          | some keyword =>
              cases shaped : typeShape run piece.last with
              | error error => simp [found, shaped]
              | ok shape => cases shape <;> simp [found, shaped]

structure Adds (scope : Scope) (block : Block) (members result : Members) (outline : Outline) :
    Prop where
  laid : outline.Laid scope.source block.tail block.indent members.cursor
  shaped : outline.Shaped scope.source block.className members.ids.length
  numbered : outline.Numbered members.tree.nodes.size result.tree.nodes.size
  ids : result.ids = members.ids ++ outline.ids
  cursor : result.cursor = outline.stopFrom members.cursor
  stands : outline.Stands scope.source result.tree
  unit : result.tree.unit = members.tree.unit
  grows : members.tree.Grows result.tree
  tidy : members.tree.Tidy → result.tree.Tidy

section

variable {scope : Scope} {block : Block} {members next result nested : Members} {site : Site}
  {rest : List Piece} {outline inner : Outline}

theorem Adds.leaf {node : Node} (isSite : site = ⟨members.tree.nextId, members.cursor, site.piece,
      following block.tail rest, block.indent⟩)
    (shaped : memberShape block.className members.ids.length site.piece
      (site.placed scope.source).source = .ok (.node node))
    (isNext : next = ⟨members.tree.add node
      ⟨(site.placed scope.source).leading, (site.placed scope.source).trailing, []⟩,
      members.ids ++ [site.id], site.stop⟩)
    (pieces : outline.pieces = rest) (adds : Adds scope block next result outline) :
    Adds scope block members result (.leaf site node outline) := by
  have id : site.id = members.tree.nextId := by rw [isSite]
  subst isNext
  have grows := members.tree.grows_add node
    ⟨(site.placed scope.source).leading, (site.placed scope.source).trailing, []⟩
  have inside : site.id < (members.tree.add node
      ⟨(site.placed scope.source).leading, (site.placed scope.source).trailing,
        []⟩).nodes.size := by
    simp [id, SyntaxTree.add, SyntaxTree.nextId]
  refine ⟨⟨⟨by rw [isSite], by rw [isSite, pieces], by rw [isSite]⟩, adds.laid⟩, ⟨shaped, ?_⟩,
    ⟨id, ?_⟩, ?_, adds.cursor, ⟨?_, ?_, adds.stands⟩, adds.unit, grows.trans adds.grows,
    fun tidy => adds.tidy (SyntaxTree.tidy_add tidy _ _)⟩
  · simpa using adds.shaped
  · simpa [id, SyntaxTree.add, SyntaxTree.nextId] using adds.numbered
  · simpa [Outline.ids] using adds.ids
  · rw [adds.grows.node? _ inside, id]
    exact members.tree.node?_add_nextId _ _
  · refine Outline.Bears.mono adds.grows inside ?_
    rw [id]
    exact members.tree.bears_add node _

theorem Adds.type {shape : ClassShape} (isSite : site = ⟨nested.tree.nextId, members.cursor,
      site.piece, following block.tail rest, block.indent⟩)
    (declares : Declares site.piece shape)
    (closed : (Code.pieces declarationRule shape.inside).unclosed = none)
    (innerPieces : inner.pieces = (Code.pieces declarationRule shape.inside).pieces)
    (innerAdds : Adds scope ⟨shape.name, (site.placed scope.source).source.indent ++ indentUnit,
      shape.closing.comments⟩ ⟨members.tree, [], bodyStart shape⟩ nested inner)
    (isNext : next = ⟨addClass scope shape (site.placed scope.source) nested,
      members.ids ++ [site.id], site.stop⟩)
    (pieces : outline.pieces = rest) (adds : Adds scope block next result outline) :
    Adds scope block members result (.type site shape inner outline) := by
  have id : site.id = nested.tree.nextId := by rw [isSite]
  subst isNext
  have nestedIds : nested.ids = inner.ids := by simpa using innerAdds.ids
  have nestedCursor : nested.cursor = inner.stopFrom (bodyStart shape) := innerAdds.cursor
  have growsInner : members.tree.Grows nested.tree := innerAdds.grows
  have growsNext : nested.tree.Grows (addClass scope shape (site.placed scope.source) nested) :=
    nested.tree.grows_add _ _
  have inside : site.id < (addClass scope shape (site.placed scope.source) nested).nodes.size := by
    simp [id, addClass, SyntaxTree.add, SyntaxTree.nextId]
  refine ⟨⟨⟨by rw [isSite], by rw [isSite, pieces], by rw [isSite]⟩, closed, innerPieces.symm,
    innerAdds.laid, adds.laid⟩, ⟨declares, innerAdds.shaped, ?_⟩, ⟨?_, ?_⟩, ?_, adds.cursor,
    ⟨⟨scope.package, ?_⟩, ?_, ?_, adds.stands⟩, adds.unit.trans innerAdds.unit,
    growsInner.trans (growsNext.trans adds.grows),
    fun tidy => adds.tidy (SyntaxTree.tidy_add (innerAdds.tidy tidy) _ _)⟩
  · simpa using adds.shaped
  · rw [id]
    exact innerAdds.numbered
  · simpa [id, addClass, SyntaxTree.add, SyntaxTree.nextId] using adds.numbered
  · simpa [Outline.ids] using adds.ids
  · rw [adds.grows.node? _ inside, ← nestedIds, id]
    exact nested.tree.node?_add_nextId _ _
  · refine Outline.Bears.mono adds.grows inside ?_
    rw [← nestedCursor, id]
    exact nested.tree.bears_add _ _
  · exact innerAdds.stands.mono (growsNext.trans adds.grows) innerAdds.numbered (Nat.le_refl _)

end

/-- Members that can be parsed have an outline. -/
theorem exists_outline_of_addMembers {scope : Scope} {block : Block} {members result : Members}
    {unclosed : Option Nat} {pieces : List Piece}
    (added : addMembers scope block members unclosed pieces = .ok result) :
    unclosed = none ∧ ∃ outline, outline.pieces = pieces ∧
      Adds scope block members result outline := by
  fun_induction addMembers scope block members unclosed pieces generalizing result with
  | case1 => cases added
  | case2 block members =>
      cases added
      exact ⟨rfl, .nil, rfl, trivial, trivial,
        rfl, by simp [Outline.ids], rfl, trivial, rfl, .refl _, id⟩
  | case3 => cases added
  | case4 block members unclosed piece rest placed node shaped =>
      rename_i next ih
      obtain ⟨closed, outline, pieces, adds⟩ := ih added
      exact ⟨closed, .leaf ⟨members.tree.nextId, members.cursor, piece, following block.tail rest,
        block.indent⟩ node outline, by rw [Outline.pieces, pieces], adds.leaf rfl shaped rfl pieces⟩
  | case5 => cases added
  | case6 block members unclosed piece rest placed shape shaped inner innerBlock start nested
      parsed =>
      rename_i next ihInner ihRest
      obtain ⟨closedInner, _, innerPieces, innerAdds⟩ := ihInner parsed
      obtain ⟨closed, outline, pieces, adds⟩ := ihRest added
      have declares := (memberShape_eq_classBody_iff _ _ _ _ _).mp shaped
      exact ⟨closed, .type ⟨nested.tree.nextId, members.cursor, piece, following block.tail rest,
        block.indent⟩ shape _ outline, by rw [Outline.pieces, pieces],
        .type rfl declares closedInner innerPieces innerAdds rfl pieces adds⟩

def Keeps (piece : Piece) (kind : TextualKind) (name : Option Text) : Prop :=
  (piece.isEmpty = true ∧ kind = .empty ∧ name = none) ∨
    (piece.isEmpty = false ∧ ∃ run, modifiers piece.tokens = .ok run ∧
      typeShape run piece.last = .ok (.textual kind name))

/-- What a declaration of a unit is that is not a class with a body. -/
inductive UnitLeaf (piece : Piece) (source : Excerpt) : Node → Prop
  | package (first : piece.first.isWord "package" = true) :
      UnitLeaf piece source (.package ⟨packageName piece, source⟩)
  | imported (noPackage : piece.first.isWord "package" = false)
      (first : piece.first.isWord "import" = true) :
      UnitLeaf piece source (.imported ⟨(importPath piece).2, (importPath piece).1,
        ['.', '*'].isSuffixOf (importPath piece).2, source⟩)
  | textual (noPackage : piece.first.isWord "package" = false)
      (noImport : piece.first.isWord "import" = false) (kind : TextualKind) (name : Option Text)
      (kept : Keeps piece kind name) : UnitLeaf piece source (textual kind name source)

structure UnitClass (piece : Piece) (shape : ClassShape) : Prop where
  noPackage : piece.first.isWord "package" = false
  noImport : piece.first.isWord "import" = false
  declares : Declares piece shape

/-- A type of a unit is kept as text, or is a class whose members can be parsed. -/
theorem addType_eq_ok {scope : Scope} {tree later : SyntaxTree} {piece : Piece} {placed : Placed}
    {id : NodeId} (added : addType scope tree piece placed = .ok (later, id)) :
    (∃ kind name, Keeps piece kind name ∧ id = tree.nextId ∧
      later = tree.add (textual kind name placed.source) ⟨placed.leading, placed.trailing, []⟩) ∨
    ∃ shape, Declares piece shape ∧
      addClassWithMembers scope tree shape placed = .ok (later, id) := by
  unfold addType at added
  cases empty : piece.isEmpty with
  | true =>
      simp only [empty, ↓reduceIte, Except.ok.injEq, Prod.mk.injEq] at added
      exact Or.inl ⟨.empty, none, Or.inl ⟨empty, rfl, rfl⟩, added.2.symm, added.1.symm⟩
  | false =>
      simp only [empty, Bool.false_eq_true, ↓reduceIte, bind, Except.bind] at added
      cases read : modifiers piece.tokens with
      | error error =>
          rw [read] at added
          cases added
      | ok run =>
          rw [read] at added
          dsimp only at added
          cases shaped : typeShape run piece.last with
          | error error =>
              rw [shaped] at added
              cases added
          | ok shape =>
              rw [shaped] at added
              cases shape with
              | textual kind name =>
                  cases added
                  exact Or.inl ⟨kind, name, Or.inr ⟨empty, run, read, shaped⟩, rfl, rfl⟩
              | classBody shape => exact Or.inr ⟨shape, ⟨empty, run, read, shaped⟩, added⟩

end Code

namespace Outline

/-- The declarations of a unit are what their pieces declare. -/
def UnitShaped (source : Text) : Outline → Prop
  | nil => True
  | leaf site node rest =>
      Code.UnitLeaf site.piece (site.placed source).source node ∧ rest.UnitShaped source
  | type site shape members rest =>
      Code.UnitClass site.piece shape ∧ members.Shaped source shape.name 0 ∧
        rest.UnitShaped source

def types : Outline → List NodeId
  | nil => []
  | leaf site node rest => if node.isMember then site.id :: rest.types else rest.types
  | type site _ _ rest => site.id :: rest.types

/-- The declarations of a kind that are not classes with a body. -/
def leaves (kind : NodeKind) : Outline → List NodeId
  | nil => []
  | leaf site node rest =>
      if node.kind = kind then site.id :: rest.leaves kind else rest.leaves kind
  | type _ _ _ rest => rest.leaves kind

end Outline

namespace Code

structure AddsUnit (source : Text) (tree : SyntaxTree) (cursor : Nat) (tail : List Token)
    (result : SyntaxTree) (outline : Outline) : Prop where
  laid : outline.Laid source tail [] cursor
  shaped : outline.UnitShaped source
  numbered : outline.Numbered tree.nodes.size result.nodes.size
  types : result.unit.types = tree.unit.types ++ outline.types
  package : result.unit.package = (outline.leaves .package).getLast?.or tree.unit.package
  imports : result.unit.imports = tree.unit.imports ++ outline.leaves .imported
  stands : outline.Stands source result
  grows : tree.Grows result
  tidy : tree.Tidy → result.Tidy

/-- A declaration that is added as one node, before others. -/
theorem AddsUnit.leaf {source : Text} {tree result : SyntaxTree} {cursor : Nat} {tail : List Token}
    {piece : Piece} {rest : List Piece} {placed : Placed} {outline : Outline} {node : Node}
    {unit : CompilationUnit} (placing : placed = place source cursor piece (following tail rest) [])
    (pieces : outline.pieces = rest) (isLeaf : UnitLeaf piece placed.source node)
    (types : unit.types = tree.unit.types ++ if node.isMember then [tree.nextId] else [])
    (package : unit.package = if node.kind = .package then some tree.nextId else tree.unit.package)
    (imports : unit.imports =
      tree.unit.imports ++ if node.kind = .imported then [tree.nextId] else [])
    (adds : AddsUnit source
      ({ tree.add node ⟨placed.leading, placed.trailing, []⟩ with unit } : SyntaxTree)
      placed.source.extent.stop tail result outline) :
    AddsUnit source tree cursor tail result
      (.leaf ⟨tree.nextId, cursor, piece, following tail rest, []⟩ node outline) := by
  have grows := tree.grows_add node ⟨placed.leading, placed.trailing, []⟩
  have stored := tree.node?_add_nextId node ⟨placed.leading, placed.trailing, []⟩
  have bears := tree.bears_add node ⟨placed.leading, placed.trailing, []⟩
  have inside : tree.nextId <
      (tree.add node ⟨placed.leading, placed.trailing, []⟩).nodes.size := by
    simp [SyntaxTree.add, SyntaxTree.nextId]
  subst placing
  refine ⟨⟨⟨rfl, by rw [pieces], rfl⟩, adds.laid⟩, ⟨isLeaf, adds.shaped⟩, ⟨rfl, ?_⟩, ?_, ?_, ?_,
    ⟨?_, ?_, adds.stands⟩, (grows.with_unit unit).trans adds.grows, fun tidy => adds.tidy ?_⟩
  · simpa [SyntaxTree.add, SyntaxTree.nextId] using adds.numbered
  · rw [adds.types, types, Outline.types]
    split <;> simp
  · rw [adds.package, package, Outline.leaves]
    split
    · rw [List.getLast?_cons]
      cases (outline.leaves .package).getLast? <;> rfl
    · rfl
  · rw [adds.imports, imports, Outline.leaves]
    split <;> simp
  · rw [adds.grows.node? _ inside]
    exact stored
  · exact (adds.grows.trivia _ inside).trans bears
  · exact (SyntaxTree.tidy_add tidy node _).with_unit unit

/-- A class that is added with its members, before other declarations. -/
theorem AddsUnit.type {scope : Scope} {tree later result : SyntaxTree} {cursor : Nat} {id : NodeId}
    {tail : List Token} {piece : Piece} {rest : List Piece} {placed : Placed} {outline : Outline}
    {shape : ClassShape} {unit : CompilationUnit}
    (placing : placed = place scope.source cursor piece (following tail rest) [])
    (pieces : outline.pieces = rest) (isClass : UnitClass piece shape)
    (added : addClassWithMembers scope tree shape placed = .ok (later, id))
    (types : unit.types = later.unit.types ++ [id]) (package : unit.package = later.unit.package)
    (imports : unit.imports = later.unit.imports)
    (adds : AddsUnit scope.source ({ later with unit } : SyntaxTree) placed.source.extent.stop tail
      result outline) :
    ∃ members, AddsUnit scope.source tree cursor tail result
      (.type ⟨id, cursor, piece, following tail rest, []⟩ shape members outline) := by
  unfold addClassWithMembers at added
  simp only [bind, Except.bind] at added
  split at added
  · cases added
  · rename_i nested parsed
    cases added
    obtain ⟨closed, members, memberPieces, memberAdds⟩ := exists_outline_of_addMembers parsed
    have nestedIds : nested.ids = members.ids := by simpa using memberAdds.ids
    have nestedCursor : nested.cursor = members.stopFrom (bodyStart shape) := memberAdds.cursor
    let node : Node := .classDecl (shape.decl scope.package nested.ids placed.source)
    let trivia := shape.trivia placed nested.cursor
    have growsNext := nested.tree.grows_add node trivia
    have stored := nested.tree.node?_add_nextId node trivia
    have bears := nested.tree.bears_add node trivia
    have inside : nested.tree.nextId < (nested.tree.add node trivia).nodes.size := by
      simp [SyntaxTree.add, SyntaxTree.nextId]
    have growsTree : tree.Grows nested.tree := memberAdds.grows
    have unitSame : nested.tree.unit = tree.unit := memberAdds.unit
    subst placing
    refine ⟨members, ⟨⟨rfl, by rw [pieces], rfl⟩, closed, memberPieces.symm, memberAdds.laid,
      adds.laid⟩, ⟨isClass, memberAdds.shaped, adds.shaped⟩, ⟨memberAdds.numbered, ?_⟩, ?_, ?_, ?_,
      ⟨⟨scope.package, ?_⟩, ?_, ?_, adds.stands⟩,
      ((growsTree.trans growsNext).with_unit unit).trans adds.grows, fun tidy => adds.tidy ?_⟩
    · simpa [addClass, SyntaxTree.add, SyntaxTree.nextId] using adds.numbered
    · rw [adds.types, types, Outline.types, ← unitSame]
      simp [addClass, SyntaxTree.add]
    · rw [adds.package, package, ← unitSame]
      rfl
    · rw [adds.imports, imports, ← unitSame]
      rfl
    · rw [adds.grows.node? _ inside, ← nestedIds]
      exact stored
    · rw [← nestedCursor]
      exact (adds.grows.trivia _ inside).trans bears
    · exact memberAdds.stands.mono ((growsNext.with_unit unit).trans adds.grows) memberAdds.numbered
        (Nat.le_refl _)
    · exact (SyntaxTree.tidy_add (memberAdds.tidy tidy) node trivia).with_unit unit

theorem exists_outline_of_addDeclarations {scope : Scope} {tree result : SyntaxTree} {cursor : Nat}
    {tail : List Token} {unclosed : Option Nat} {pieces : List Piece}
    (added : addDeclarations scope tree cursor tail unclosed pieces = .ok result) :
    unclosed = none ∧ ∃ outline, outline.pieces = pieces ∧
      AddsUnit scope.source tree cursor tail result outline := by
  induction pieces generalizing scope tree cursor with
  | nil =>
      cases unclosed with
      | some offset => cases added
      | none =>
          cases added
          exact ⟨rfl, .nil, rfl, trivial, trivial, rfl, by simp [Outline.types], rfl,
            by simp [Outline.leaves], trivial, .refl _, id⟩
  | cons piece rest ih =>
      rw [addDeclarations] at added
      dsimp only at added
      cases package : piece.first.isWord "package" with
      | true =>
          rw [if_pos package] at added
          obtain ⟨closed, outline, pieces, adds⟩ := ih added
          refine ⟨closed, _, by rw [Outline.pieces, pieces],
            .leaf rfl pieces (.package package) ?_ ?_ ?_ adds⟩
          · simp [SyntaxTree.add, Node.isMember]
          · simp [Node.kind]
          · simp [SyntaxTree.add, Node.kind]
      | false =>
          rw [if_neg (by simp [package])] at added
          cases imported : piece.first.isWord "import" with
          | true =>
              rw [if_pos imported] at added
              obtain ⟨closed, outline, pieces, adds⟩ := ih added
              refine ⟨closed, _, by rw [Outline.pieces, pieces],
                .leaf rfl pieces (.imported package imported) ?_ ?_ ?_ adds⟩
              · simp [SyntaxTree.add, Node.isMember]
              · simp [SyntaxTree.add, Node.kind]
              · simp [SyntaxTree.add, Node.kind]
          | false =>
              rw [if_neg (by simp [imported])] at added
              split at added
              · cases added
              · rename_i later id addedType
                obtain ⟨closed, outline, pieces, adds⟩ := ih added
                rcases addType_eq_ok addedType with ⟨kind, name, kept, rfl, rfl⟩
                  | ⟨shape, declares, addedClass⟩
                · refine ⟨closed, _, by rw [Outline.pieces, pieces],
                    .leaf rfl pieces (.textual package imported kind name kept) ?_ ?_ ?_ adds⟩
                  · simp [SyntaxTree.add, Node.isMember, textual]
                  · simp [SyntaxTree.add, Node.kind, textual]
                  · simp [SyntaxTree.add, Node.kind, textual]
                · let unit := { later.unit with types := later.unit.types ++ [id] }
                  obtain ⟨members, adds⟩ :=
                    @AddsUnit.type scope tree later result cursor id tail piece
                    rest _ outline shape unit rfl pieces ⟨package, imported, declares⟩
                      addedClass rfl
                    rfl rfl adds
                  exact ⟨closed, _, by rw [Outline.pieces, pieces], adds⟩

end Code

end JavaRecords
