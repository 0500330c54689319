import JavaRecords.Parse.Layout
import JavaRecords.Parse.TypeHeader
import JavaRecords.Tree.Basic

set_option autoImplicit false

namespace JavaRecords

/-- What encloses the declarations that are being parsed. -/
structure Scope where
  source : Text
  package : Option Text

/-- The body of a class while its members are parsed. -/
structure Block where
  className : Text
  /-- The indentation of a member that does not start its line. -/
  indent : Text
  /-- The comments before the closing brace. -/
  tail : List Token

/-- A tree, the members added to it so far, and the end of the last of them. -/
structure Members where
  tree : SyntaxTree
  ids : List NodeId
  cursor : Nat

namespace Code

/-- Declarations end at a semicolon, or after a block unless an assignment stands before it. -/
def declarationRule : PieceRule where
  opens _ := false
  keepsOpen code := code.assign.isSome
  chains _ := false

/-- The indentation of one level. -/
def indentUnit : Text := [' ', ' ', ' ', ' ']

/-- What a member of a class is: a complete node, or a class whose members are still to be parsed.
-/
inductive MemberShape where
  | node (node : Node)
  | classBody (shape : ClassShape)

def memberShape (className : Text) (position : Nat) (piece : Piece) (source : Excerpt) :
    Except ParseError MemberShape :=
  if piece.isEmpty then .ok (.node (textual .empty none source))
  else match modifiers piece.tokens with
    | .error error => .error error
    | .ok run =>
        match typeKeyword? run.rest with
        | none => (memberNode className position run piece.last source).map .node
        | some _ =>
            match typeShape run piece.last with
            | .error error => .error error
            | .ok (.textual kind name) => .ok (.node (textual kind name source))
            | .ok (.classBody shape) => .ok (.classBody shape)

/-- The comments after the opening brace of a class on its line. -/
def openingComments (shape : ClassShape) : List Token :=
  sameLine ((shape.inside ++ [shape.closing]).head?.map CodeToken.comments |>.getD [])

def bodyStart (shape : ClassShape) : Nat := endOf shape.opening.stop (openingComments shape)

def addClass (scope : Scope) (shape : ClassShape) (placed : Placed) (members : Members) :
    SyntaxTree :=
  let header := (shape.comments ++ openingComments shape).map Comment.ofToken
  let dangling := (commentsFrom members.cursor shape.closing.comments).map Comment.ofToken
  members.tree.add
    (.classDecl
      { name := shape.name
        typeParams := shape.typeParams
        modifiers := shape.modifiers
        headerPrefix := shape.headerPrefix
        superclass := headerClause? "extends" shape.clauses
        interfaces := headerClause? "implements" shape.clauses
        permits := headerClause? "permits" shape.clauses
        package := scope.package
        members := members.ids
        source := placed.source })
    ⟨placed.leading ++ header, placed.trailing, dangling⟩

theorem length_modifiers {code : List CodeToken} {run : ModifierRun}
    (read : modifiers code = .ok run) : run.rest.length ≤ code.length := by
  fun_induction modifiers code generalizing run with
  | case1 => cases read
  | case2 => cases read; simp
  | case3 => cases read
  | case4 code step found inner more ih =>
      cases read
      have shorter := length_of_modifier? found
      have rest := ih more
      dsimp only
      omega

/-- The body of a member class is shorter than its declaration. -/
theorem length_memberShape {className : Text} {position : Nat} {piece : Piece} {source : Excerpt}
    {shape : ClassShape}
    (read : memberShape className position piece source = .ok (.classBody shape)) :
    shape.inside.length < piece.tokens.length := by
  unfold memberShape at read
  split at read
  · cases read
  · split at read
    · cases read
    · rename_i run found
      have bound := length_modifiers found
      split at read
      · generalize memberNode className position run piece.last source = node at read
        cases node <;> cases read
      · split at read
        · cases read
        · cases read
        · rename_i inner shaped
          cases read
          have shorter := length_typeShape shaped
          omega

theorem weight_lt_cons (piece : Piece) (rest : List Piece) :
    weight rest < weight (piece :: rest) := by
  rw [weight_cons, Piece.tokens, List.length_cons]
  omega

/-- Adds the members that pieces declare. `unclosed` is the brace after the last piece that is never
closed, if there is one. -/
def addMembers (scope : Scope) (block : Block) (members : Members) (unclosed : Option Nat)
    (pieces : List Piece) : Except ParseError Members :=
  match pieces with
  | [] =>
      match unclosed with
      | some offset => .error (.unbalanced '{' offset)
      | none => .ok members
  | piece :: rest =>
      let placed :=
        place scope.source members.cursor piece (following block.tail rest) block.indent
      match _shaped : memberShape block.className members.ids.length piece placed.source with
      | .error error => .error error
      | .ok (.node node) =>
          let added : Members :=
            { tree := members.tree.add node ⟨placed.leading, placed.trailing, []⟩
              ids := members.ids ++ [members.tree.nextId]
              cursor := placed.source.extent.stop }
          addMembers scope block added unclosed rest
      | .ok (.classBody shape) =>
          let inner := Code.pieces declarationRule shape.inside
          let innerBlock : Block :=
            ⟨shape.name, placed.source.indent ++ indentUnit, shape.closing.comments⟩
          let start : Members := ⟨members.tree, [], bodyStart shape⟩
          match addMembers scope innerBlock start inner.unclosed inner.pieces with
          | .error error => .error error
          | .ok nested =>
              let added : Members :=
                { tree := addClass scope shape placed nested
                  ids := members.ids ++ [nested.tree.nextId]
                  cursor := placed.source.extent.stop }
              addMembers scope block added unclosed rest
termination_by weight pieces
decreasing_by
  · exact weight_lt_cons piece rest
  · have bound := weight_pieces_le declarationRule shape.inside
    have shorter := length_memberShape _shaped
    rw [weight_cons]
    omega
  · exact weight_lt_cons piece rest

/-- Adds the class that a piece declares, with its members. Gives the class's id too. -/
def addClassWithMembers (scope : Scope) (tree : SyntaxTree) (shape : ClassShape)
    (placed : Placed) : Except ParseError (SyntaxTree × NodeId) := do
  let inner := Code.pieces declarationRule shape.inside
  let block : Block := ⟨shape.name, placed.source.indent ++ indentUnit, shape.closing.comments⟩
  let members ← addMembers scope block ⟨tree, [], bodyStart shape⟩ inner.unclosed inner.pieces
  return (addClass scope shape placed members, members.tree.nextId)

def addType (scope : Scope) (tree : SyntaxTree) (piece : Piece) (placed : Placed) :
    Except ParseError (SyntaxTree × NodeId) :=
  let keep (kind : TextualKind) (name : Option Text) : SyntaxTree × NodeId :=
    (tree.add (textual kind name placed.source) ⟨placed.leading, placed.trailing, []⟩, tree.nextId)
  if piece.isEmpty then .ok (keep .empty none)
  else do
    let run ← modifiers piece.tokens
    match ← typeShape run piece.last with
    | .textual kind name => return keep kind name
    | .classBody shape => addClassWithMembers scope tree shape placed

def packageName (piece : Piece) : Text := joined piece.trimmed.tail

def importPath (piece : Piece) : Bool × Text :=
  match piece.trimmed.tail with
  | [] => (false, [])
  | first :: rest =>
      if first.isWord "static" then (true, joined rest) else (false, joined (first :: rest))

/-- Adds the package, the imports and the types that pieces declare. `cursor` is where the piece
before them ends, `tail` are the comments after the last piece, and `unclosed` is the brace after it
that is never closed. -/
def addDeclarations (scope : Scope) (tree : SyntaxTree) (cursor : Nat) (tail : List Token)
    (unclosed : Option Nat) : List Piece → Except ParseError SyntaxTree
  | [] =>
      match unclosed with
      | some offset => .error (.unbalanced '{' offset)
      | none => .ok tree
  | piece :: rest =>
      let placed := place scope.source cursor piece (following tail rest) []
      let cursor := placed.source.extent.stop
      let trivia : Trivia := ⟨placed.leading, placed.trailing, []⟩
      let id := tree.nextId
      if piece.first.isWord "package" then
        let name := packageName piece
        let added := tree.add (.package ⟨name, placed.source⟩) trivia
        let unit := { added.unit with package := some id }
        addDeclarations { scope with package := some name } { added with unit } cursor tail unclosed
          rest
      else if piece.first.isWord "import" then
        let (isStatic, path) := importPath piece
        let isStar := ['.', '*'].isSuffixOf path
        let added := tree.add (.imported ⟨path, isStatic, isStar, placed.source⟩) trivia
        let unit := { added.unit with imports := added.unit.imports ++ [id] }
        addDeclarations scope { added with unit } cursor tail unclosed rest
      else
        match addType scope tree piece placed with
        | .error error => .error error
        | .ok (added, id) =>
            let unit := { added.unit with types := added.unit.types ++ [id] }
            addDeclarations scope { added with unit } cursor tail unclosed rest

end Code

/-- Parses a Java compilation unit: the package, the imports and the classes with their members.
Everything else is kept as text, so it fails only where a token or a bracket is never closed. -/
def parse (source : Text) : Except ParseError SyntaxTree :=
  match Code.read source with
  | .error error => .error (.lex error)
  | .ok code =>
      let cut := Code.pieces Code.declarationRule code.tokens
      Code.addDeclarations ⟨source, none⟩ { source } 0 code.tail cut.unclosed cut.pieces

end JavaRecords
