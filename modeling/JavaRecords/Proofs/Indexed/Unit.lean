import JavaRecords.Proofs.Indexed.Types

set_option autoImplicit false

namespace JavaRecords.Indexed

open Code (flat)

namespace Tape

variable (tape : Tape)

/-- The byte offset where the token after the place `last` starts, or the source stops. -/
def limitAfter (last : Nat) : Nat :=
  match tape.tokens[last + 1]? with
  | some next => next.start
  | none => Text.byteSize tape.source

def importPath (first last : Nat) : Run (Bool × Text) := do
  let isStatic := tape.isWord (first + 1) "static"
  let path ← tape.joined (if isStatic then first + 2 else first + 1) (tape.trimmedEnd last)
  return (isStatic, path)

/-- Adds the type from the token `first` to the token `last`. Gives its id too. -/
def addType (package : Option Text) (tree : SyntaxTree) (placed : Placed) (first last : Nat) :
    Run (SyntaxTree × NodeId) := do
  let declared ← tape.typeDecl first last placed.source
  tape.addDeclared package tree placed last
    (fun header => tape.membersFrom package header.name
      (placed.source.indent ++ Code.indentUnit) last
      ⟨tree, [], header.start⟩ (header.opening + 1)) declared

/-- Adds the package, the import or the type from the token `first` to the token `last`. Gives the
package of what follows too. -/
def addUnit (package : Option Text) (tree : SyntaxTree) (placed : Placed) (first last : Nat) :
    Run (Option Text × SyntaxTree) :=
  let trivia : Trivia := ⟨placed.leading, placed.trailing, []⟩
  if tape.isWord first "package" then do
    let name ← tape.joined (first + 1) (tape.trimmedEnd last)
    let added := tree.add (.package ⟨name, placed.source⟩) trivia
    return (some name, { added with unit := { added.unit with package := some tree.nextId } })
  else if tape.isWord first "import" then do
    let (isStatic, path) ← tape.importPath first last
    let isStar := ['.', '*'].isSuffixOf path
    let added := tree.add (.imported ⟨path, isStatic, isStar, placed.source⟩) trivia
    let imports := added.unit.imports ++ [tree.nextId]
    return (package, { added with unit := { added.unit with imports } })
  else do
    let (added, id) ← tape.addType package tree placed first last
    return (package, { added with unit := { added.unit with types := added.unit.types ++ [id] } })

/-- Adds the declarations from the place `i` on. `cursor` is where the declaration before
them stops. -/
def declarationsFrom (package : Option Text) (tree : SyntaxTree) (cursor i : Nat) :
    Run SyntaxTree :=
  if _ : i < tape.tokens.length then do
    let last ← tape.pieceEnd tape.declarationEnds i tape.tokens.length
    let placed ← tape.item cursor i last (tape.limitAfter last) []
    if _ : i ≤ last then
      let (package, tree) ← tape.addUnit package tree placed i last
      declarationsFrom package tree placed.source.extent.stop (last + 1)
    else stuck
  else return tree
termination_by tape.tokens.length - i

end Tape

def Tape.ofTokens (source : Text) (tokens : List Token) : Tape :=
  ⟨source, tokens.filter fun token => !token.isComment, tokens.filter Token.isComment⟩

/-- Parses a compilation unit by byte offsets and token indices. -/
def parse (source : Text) : Run SyntaxTree := do
  let tokens ← lex source
  (Tape.ofTokens source tokens).declarationsFrom none { source } 0 0

theorem lift_bind {α β : Type} (result : Except ParseError α) (next : α → Except ParseError β) :
    lift (result >>= next) = lift result >>= fun value => lift (next value) := by
  cases result <;> rfl

/-- A piece that starts with a word starts with it without its semicolon, too. -/
theorem exists_trimmed {piece : Piece} (isIdent : piece.first.isIdent = true) :
    ∃ rest, piece.trimmed = piece.first :: rest := by
  obtain ⟨first, rest⟩ := piece
  rw [Piece.trimmed]
  split
  · rename_i isLast
    cases rest with
    | nil => cases isLast.symm.trans (CodeToken.isPunct_of_isIdent isIdent ';')
    | cons second rest => exact ⟨_, rfl⟩
  · exact ⟨rest, rfl⟩

namespace Tape.Holds

variable {tape : Tape} {all : List CodeToken} {piece : Piece} {i j : Nat} (holds : tape.Holds all)
include holds

theorem packageName_eq (guarded : Guarded all i piece.tokens j)
    (isIdent : piece.first.isIdent = true) :
    tape.joined (i + 1) (tape.trimmedEnd (j - 1)) = .ok (Code.packageName piece) := by
  obtain ⟨rest, split⟩ := exists_trimmed isIdent
  have inner := (holds.guarded_trimmed guarded).stretch
  rw [split] at inner
  rw [holds.joined_eq inner.tail, Code.packageName, split, List.tail_cons]

theorem importPath_eq (guarded : Guarded all i piece.tokens j)
    (isIdent : piece.first.isIdent = true) :
    tape.importPath i (j - 1) = .ok (Code.importPath piece) := by
  obtain ⟨rest, split⟩ := exists_trimmed isIdent
  have inner := holds.guarded_trimmed guarded
  rw [split] at inner
  have behind := inner.tail (stopsPiece_of_isIdent isIdent)
  rw [Tape.importPath, holds.isWord_head behind, Code.importPath, split, List.tail_cons]
  have stretch := behind.stretch
  cases rest with
  | nil =>
      simp only [List.head?_nil, Option.any_none, Bool.false_eq_true, if_false,
        holds.joined_eq stretch]
      rfl
  | cons first rest =>
      rw [List.head?_cons, Option.any_some]
      dsimp only
      cases first.isWord "static" with
      | true =>
          simp only [if_true, holds.joined_eq stretch.tail]
          rfl
      | false =>
          simp only [Bool.false_eq_true, if_false, holds.joined_eq stretch]
          rfl

end Tape.Holds

namespace Tape.Reads

variable {tape : Tape} {code : Code} {piece : Piece} {i j : Nat} (reads : tape.Reads code)
include reads

theorem addType_eq (package : Option Text) (tree : SyntaxTree) (placed : Placed)
    (guarded : Guarded code.tokens i piece.tokens j) :
    tape.addType package tree placed i (j - 1) =
      lift (Code.addType ⟨tape.source, package⟩ tree piece placed) := by
  rw [Tape.addType, Code.addType_eq]
  exact reads.addDeclared_eq package tree placed _ (reads.typeDecl_told guarded placed.source)
    fun shape opening _ stretch closes reaches =>
      reads.membersFrom_told package shape.name (placed.source.indent ++ Code.indentUnit)
        ⟨tree, [], Code.bodyStart shape⟩ stretch.dropLast stretch.last closes reaches

theorem addUnit_eq (package : Option Text) (tree : SyntaxTree) (placed : Placed)
    (guarded : Guarded code.tokens i piece.tokens j) :
    lift (Code.addUnit ⟨tape.source, package⟩ tree piece placed) =
      (tape.addUnit package tree placed i (j - 1)).map fun added =>
        (⟨tape.source, added.1⟩, added.2) := by
  have holds := reads.toHolds
  have here : code.tokens[i]? = some piece.first := guarded.stretch.head
  rw [Tape.addUnit, Code.addUnit, holds.isWord_eq here, holds.isWord_eq here]
  cases isPackage : piece.first.isWord "package" with
  | true =>
      simp only [if_true, holds.packageName_eq guarded (CodeToken.isIdent_of_isWord isPackage)]
      rfl
  | false =>
      simp only [Bool.false_eq_true, if_false]
      cases isImport : piece.first.isWord "import" with
      | true =>
          simp only [if_true, holds.importPath_eq guarded (CodeToken.isIdent_of_isWord isImport)]
          rfl
      | false =>
          simp only [Bool.false_eq_true, if_false, reads.addType_eq package tree placed guarded]
          cases Code.addType ⟨tape.source, package⟩ tree piece placed <;> rfl

theorem limitAfter_eq (positive : 0 < j) : tape.limitAfter (j - 1) =
    (code.tokens[j]?.map CodeToken.start).getD (Text.byteSize tape.source) := by
  rw [Tape.limitAfter, Nat.sub_add_cancel positive, reads.toHolds.getElem?]
  cases code.tokens[j]? <;> rfl

/-- The declarations of a unit are those that its tokens declare. -/
theorem declarationsFrom_eq (package : Option Text) (tree : SyntaxTree) {cursor i : Nat}
    {part : List CodeToken} (stretch : Stretch code.tokens i part code.tokens.length)
    (reach : Reaches code i cursor) :
    tape.declarationsFrom package tree cursor i =
      lift (Code.addDeclarations ⟨tape.source, package⟩ tree cursor code.tail
        (Code.pieces Code.declarationRule part).unclosed
          (Code.pieces Code.declarationRule part).pieces) := by
  have holds := reads.toHolds
  have size := holds.length_tokens
  match part with
  | [] =>
      rw [Tape.declarationsFrom, dif_neg (by rw [size, stretch.eq_of_nil]; exact Nat.lt_irrefl _)]
      rfl
  | first :: part =>
      rw [Tape.declarationsFrom, dif_pos (by rw [size]; exact stretch.lt), size]
      obtain ⟨offset, same, found⟩ | ⟨piece, rest, k, goes, -, same, found, guarded, -, behind⟩ :=
        holds.declaration_cases stretch fun next isNext => by
          rw [List.getElem?_eq_none le_rfl] at isNext
          cases isNext
      · rw [same, found]
        rfl
      · have isTail : commentsAt code code.tokens.length = code.tail := by
          rw [commentsAt, List.drop_length]
        have last : k - 1 + 1 = k := Nat.sub_add_cancel (by omega)
        obtain ⟨item, reaches⟩ := reads.item_eq guarded.stretch reach
          (reads.limitAfter_eq (by omega)) []
        rw [same, found, ok_bind, item, ok_bind, dif_pos (by omega), last,
          Code.addDeclarations_cons (reads.followedBy behind isTail)]
        change Reaches code k (Code.place tape.source cursor piece _
          []).source.extent.stop at reaches
        dsimp only
        generalize Code.place tape.source cursor piece (commentsAt code k) [] = placed at reaches
        rw [lift_bind, reads.addUnit_eq package tree placed guarded]
        cases tape.addUnit package tree placed i (k - 1) with
        | error stop => rfl
        | ok added =>
            have shorter : rest.length < (first :: part).length := by
              have whole := stretch.length
              have left := behind.length
              omega
            exact declarationsFrom_eq added.1 added.2 behind reaches
termination_by part.length
decreasing_by exact shorter

end Tape.Reads

theorem Tape.reads_ofTokens {source : Text} {tokens : List Token}
    (lexed : JavaRecords.lex source = .ok tokens) :
    (Tape.ofTokens source tokens).Reads (.ofTokens tokens) := by
  obtain ⟨closed, rfl⟩ := lex_eq_ok_iff.mp lexed
  obtain ⟨chain, -, placed⟩ := chain_of_lexFrom 0 source closed
  have spelled := spell_lexFrom 0 source closed
  have whole := Code.flat_ofTokens (lexAll source).tokens
  obtain ⟨bound, tail⟩ := Code.bound_ofTokens (lexAll source).tokens
  exact
    { Tape.holds_ofTokens ((lexAll source).tokens.filter Token.isComment) spelled placed with
      comments := by rw [whole]; rfl
      read := ⟨_, by rw [whole]; exact spelled.symm, by rw [whole]; exact chain⟩
      located := by rw [whole]; exact placed
      bound := bound
      boundTail := tail }

/-- A source is parsed by byte offsets and token indices as it is over its code. -/
theorem parse_eq (source : Text) : parse source = lift (JavaRecords.parse source) := by
  rw [parse, lex_eq, JavaRecords.parse, Code.read]
  cases lexed : JavaRecords.lex source with
  | error error => rfl
  | ok tokens =>
      have reads := Tape.reads_ofTokens lexed
      have start : Reaches (.ofTokens tokens) 0 0 := ⟨[], _, rfl, rfl⟩
      exact reads.declarationsFrom_eq none { source } (Stretch.whole _) start

end JavaRecords.Indexed
