import JavaRecords.Proofs.Parse.Moved
import JavaRecords.Proofs.Parse.Outline

set_option autoImplicit false

namespace JavaRecords

/-- What is left of a result without its value. -/
def failure {α : Type} (result : Except ParseError α) : Except ParseError Unit :=
  result.map fun _ => ()

theorem bind_error_of_failure {α : Type} {result other : Except ParseError α}
    (alike : failure result = failure other) {β : Type} (error : ParseError) :
    (result >>= fun _ => (.error error : Except ParseError β)) = other >>= fun _ =>
      .error error := by
  cases result <;> cases other <;> cases alike <;> rfl

theorem failure_bind {α β γ : Type} {result : Except ParseError α} {other : Except ParseError β}
    (alike : failure result = failure other) {next : α → Except ParseError γ}
    {after : β → Except ParseError γ}
    (later : ∀ value value', result = .ok value → other = .ok value' →
      failure (next value) = failure (after value')) :
    failure (result >>= next) = failure (other >>= after) := by
  cases result <;> cases other <;> cases alike
  · rfl
  · exact later _ _ rfl rfl

namespace Code

/-- Adds a declaration, with the members of a class. Gives its id too. -/
def addDeclared (scope : Scope) (tree : SyntaxTree) (placed : Placed) :
    MemberShape → Except ParseError (SyntaxTree × NodeId)
  | .node node => .ok (tree.add node ⟨placed.leading, placed.trailing, []⟩, tree.nextId)
  | .classBody shape => addClassWithMembers scope tree shape placed

def addMember (scope : Scope) (block : Block) (members : Members) (piece : Piece)
    (placed : Placed) :
    Except ParseError Members := do
  let shape ← memberShape block.className members.ids.length piece placed.source
  let (tree, id) ← addDeclared scope members.tree placed shape
  return ⟨tree, members.ids ++ [id], placed.source.extent.stop⟩

def memberOfType (source : Excerpt) : TypeShape → MemberShape
  | .textual kind name => .node (textual kind name source)
  | .classBody shape => .classBody shape

/-- What a piece outside of a class declares. -/
def typeMember (piece : Piece) (source : Excerpt) : Except ParseError MemberShape :=
  if piece.isEmpty then .ok (.node (textual .empty none source))
  else (modifiers piece.tokens >>= fun run => typeShape run piece.last).map (memberOfType source)

def addUnit (scope : Scope) (tree : SyntaxTree) (piece : Piece) (placed : Placed) :
    Except ParseError (Scope × SyntaxTree) :=
  let trivia : Trivia := ⟨placed.leading, placed.trailing, []⟩
  if piece.first.isWord "package" then
    let name := packageName piece
    let added := tree.add (.package ⟨name, placed.source⟩) trivia
    .ok ({ scope with package := some name },
      { added with unit := { added.unit with package := some tree.nextId } })
  else if piece.first.isWord "import" then
    let (isStatic, path) := importPath piece
    let added := tree.add (.imported ⟨path, isStatic, ['.', '*'].isSuffixOf path, placed.source⟩)
      trivia
    .ok (scope, { added with unit :=
      { added.unit with imports := added.unit.imports ++ [tree.nextId] } })
  else do
    let (added, id) ← addType scope tree piece placed
    return (scope, { added with unit := { added.unit with types := added.unit.types ++ [id] } })

variable {scope : Scope} {tree : SyntaxTree} {piece : Piece} {placed other : Placed}

theorem addType_eq :
    addType scope tree piece placed =
      typeMember piece placed.source >>= addDeclared scope tree placed := by
  unfold addType typeMember
  split
  · rfl
  · cases modifiers piece.tokens with
    | error error => rfl
    | ok run =>
        change (typeShape run piece.last >>= _) = (typeShape run piece.last).map _ >>= _
        cases typeShape run piece.last with
        | error error => rfl
        | ok shape => cases shape <;> rfl

theorem memberShape_of_typeKeyword {className : Text} {position : Nat} {source : Excerpt}
    {run : ModifierRun} (read : modifiers piece.tokens = .ok run)
    (found : (typeKeyword? run.rest).isSome = true) :
    memberShape className position piece source = typeMember piece source := by
  unfold memberShape typeMember
  split
  · rfl
  · obtain ⟨keyword, found⟩ := Option.isSome_iff_exists.mp found
    rw [read]
    change _ = (typeShape run piece.last).map _
    simp only [found]
    cases typeShape run piece.last with
    | error error => rfl
    | ok shape => cases shape <;> rfl

theorem move_zero (error : ParseError) : error.move 0 = error := by cases error <;> rfl

/-- Two readings that differ only in where a declaration stands. -/
inductive ReadAlike : Except ParseError MemberShape → Except ParseError MemberShape → Prop
  | error (error : ParseError) : ReadAlike (.error error) (.error error)
  | node (node node' : Node) : ReadAlike (.ok (.node node)) (.ok (.node node'))
  | classBody (shape : ClassShape) : ReadAlike (.ok (.classBody shape)) (.ok (.classBody shape))

theorem memberShape_alike (className : Text) (position : Nat) (piece : Piece)
    (source other : Excerpt) :
    ReadAlike (memberShape className position piece source)
      (memberShape className position piece other) := by
  -- Both are read as the member that is moved to its own place.
  have gist := (memberShape_move 0 className position piece source source).symm.trans
    (memberShape_move 0 className position piece other source)
  have classBody := fun shape =>
    (memberShape_eq_classBody_iff className position piece source shape).trans
    (memberShape_eq_classBody_iff className position piece other shape).symm
  generalize memberShape className position piece source = own at gist classBody ⊢
  generalize memberShape className position piece other = there at gist classBody ⊢
  rcases own with error | node | shape
  · rcases there with error' | shape
    · simp only [moved_error, move_zero, Except.error.injEq] at gist
      exact gist ▸ .error error
    · cases gist
  · rcases there with error | node' | shape
    · cases gist
    · exact .node node node'
    · cases (classBody shape).mpr rfl
  · cases (classBody shape).mp rfl
    exact .classBody shape

theorem typeMember_alike (piece : Piece) (source other : Excerpt) :
    ReadAlike (typeMember piece source) (typeMember piece other) := by
  unfold typeMember
  split
  · exact .node _ _
  · generalize (modifiers piece.tokens >>= fun run => typeShape run piece.last) = shape
    rcases shape with error | ⟨kind, name⟩ | shape
    · exact .error error
    · exact .node _ _
    · exact .classBody shape

theorem failure_addClassWithMembers (shape : ClassShape)
    (indent : placed.source.indent = other.source.indent) :
    failure (addClassWithMembers scope tree shape placed) =
      failure (addClassWithMembers scope tree shape other) := by
  unfold addClassWithMembers
  rw [indent]
  exact failure_bind rfl fun _ _ _ _ => rfl

/-- Declarations that are read alike are added alike. -/
theorem failure_addDeclared (scope : Scope) (tree : SyntaxTree)
    {result result' : Except ParseError MemberShape}
    (indent : placed.source.indent = other.source.indent)
    (alike : ReadAlike result result') :
    failure (result >>= addDeclared scope tree placed) =
      failure (result' >>= addDeclared scope tree other) := by
  cases alike with
  | error error => rfl
  | node node node' => rfl
  | classBody shape => exact failure_addClassWithMembers shape indent

theorem failure_addMember (block : Block) (members : Members)
    (indent : placed.source.indent = other.source.indent) :
    failure (addMember scope block members piece placed) =
      failure (addMember scope block members piece other) := by
  have added := failure_addDeclared scope members.tree indent
    (memberShape_alike block.className members.ids.length piece placed.source other.source)
  unfold addMember
  rw [← bind_assoc, ← bind_assoc]
  exact failure_bind added fun _ _ _ _ => rfl

theorem failure_addUnit (indent : placed.source.indent = other.source.indent) :
    failure (addUnit scope tree piece placed) = failure (addUnit scope tree piece other) := by
  unfold addUnit
  split
  · rfl
  · split
    · rfl
    · rw [addType_eq, addType_eq]
      exact failure_bind (failure_addDeclared _ _ indent (typeMember_alike piece _ _))
        fun _ _ _ _ => rfl

variable {block : Block} {members : Members} {unclosed : Option Nat} {rest : List Piece}
  {cut : Pieces} {tail comments : List Token} {cursor : Nat}

def addInside (scope : Scope) (block : Block) (members : Members) (cut : Pieces) :
    Except ParseError Members := addMembers scope block members cut.unclosed cut.pieces

/-- The comments in front of what is cut into pieces are `comments`, or a brace in it is never
closed. -/
def FollowedBy (tail : List Token) (cut : Pieces) (comments : List Token) : Prop :=
  following tail cut.pieces = comments ∨ cut.pieces = [] ∧ cut.unclosed.isSome = true

theorem addMembers_following :
    addMembers scope block members unclosed (piece :: rest) =
      addMember scope block members piece
        (place scope.source members.cursor piece (following block.tail rest) block.indent) >>=
          fun added =>
          addMembers scope block added unclosed rest := by
  rw [addMembers, addMember]
  dsimp only
  generalize place scope.source members.cursor piece (following block.tail rest) block.indent =
    placed
  cases memberShape block.className members.ids.length piece placed.source with
  | error error => rfl
  | ok shape =>
      cases shape with
      | node node => rfl
      | classBody shape =>
          change _ = (addClassWithMembers scope members.tree shape placed >>= _) >>= _
          rw [addClassWithMembers]
          dsimp only
          cases addMembers scope _ _ _ (pieces declarationRule shape.inside).pieces <;> rfl

/-- A member is added before those after it. -/
theorem addInside_cons (follows : FollowedBy block.tail cut comments) :
    addInside scope block members { cut with pieces := piece :: cut.pieces } =
      addMember scope block members piece
        (place scope.source members.cursor piece comments block.indent) >>= fun added =>
          addInside scope block added cut := by
  obtain ⟨here, rest, unclosed⟩ := cut
  simp only [addInside]
  rw [addMembers_following]
  obtain rfl | ⟨empty, isSome⟩ := follows
  · rfl
  · obtain rfl : rest = [] := empty
    obtain ⟨offset, rfl⟩ : ∃ offset, unclosed = some offset := Option.isSome_iff_exists.mp isSome
    simp only [addMembers]
    exact bind_error_of_failure (failure_addMember block members (by rfl)) _

theorem addDeclarations_following :
    addDeclarations scope tree cursor tail unclosed (piece :: rest) =
      let placed := place scope.source cursor piece (following tail rest) []
      addUnit scope tree piece placed >>= fun added =>
        addDeclarations added.1 added.2 placed.source.extent.stop tail unclosed rest := by
  rw [addDeclarations]
  unfold addUnit
  dsimp only
  generalize place scope.source cursor piece (following tail rest) [] = placed
  split
  · rfl
  · split
    · rfl
    · cases addType scope tree piece placed <;> rfl

theorem addDeclarations_cons (follows : FollowedBy tail cut comments) :
    addDeclarations scope tree cursor tail cut.unclosed (piece :: cut.pieces) =
      let placed := place scope.source cursor piece comments []
      addUnit scope tree piece placed >>= fun added =>
        addDeclarations added.1 added.2 placed.source.extent.stop tail cut.unclosed cut.pieces := by
  obtain ⟨here, rest, unclosed⟩ := cut
  rw [addDeclarations_following]
  obtain rfl | ⟨empty, isSome⟩ := follows
  · rfl
  · obtain rfl : rest = [] := empty
    obtain ⟨offset, rfl⟩ : ∃ offset, unclosed = some offset := Option.isSome_iff_exists.mp isSome
    simp only [addDeclarations]
    exact bind_error_of_failure (failure_addUnit (by rfl)) _

end Code

end JavaRecords
