import JavaRecords.Conversion.Partition
import JavaRecords.Proofs.Code.Assigned

set_option autoImplicit false

namespace JavaRecords

namespace Token

/-- Tokens are the name of a variable that is no keyword, or name a field of `this`. No comment
among the tokens `all` of the source stands between `this` and the field. -/
inductive Names (all : List Token) (name : Text) : List Token → Prop
  | bare {token : Token} (isName : token.isWord name = true) (free : isKeyword name = false) :
      Names all name [token]
  | field {this dot target : Token} (isThis : this.isWord "this".toList = true)
      (isDot : dot.isPunct '.' = true) (isName : target.isWord name = true)
      (uncommented : ∀ token ∈ between all this.stop target.start, token.isComment = false) :
      Names all name [this, dot, target]

/-- Tokens return a variable. The semicolon behind it may be missing. -/
inductive Returns (all : List Token) (name : Text) : List Token → Prop
  | bare {keyword : Token} {value : List Token} (returns : keyword.isWord "return".toList = true)
      (names : Names all name value) : Returns all name (keyword :: value)
  | ended {keyword semicolon : Token} {value : List Token}
      (returns : keyword.isWord "return".toList = true) (names : Names all name value)
      (ends : semicolon.isPunct ';' = true) : Returns all name (keyword :: (value ++ [semicolon]))

end Token

/-- A token that leaves a statement open and opens nothing in it. -/
structure CodeToken.Smooth (code : CodeToken) : Prop where
  opening : code.isPunct '(' = false
  closing : code.isPunct ')' = false
  semicolon : code.isPunct ';' = false
  brace : code.isPunct '{' = false

theorem CodeToken.Smooth.of_isIdent {code : CodeToken} (isIdent : code.isIdent = true) :
    code.Smooth := by
  constructor <;> exact CodeToken.isPunct_of_isIdent isIdent _

theorem CodeToken.Smooth.of_isDot {code : CodeToken} (isDot : code.isPunct '.' = true) :
    code.Smooth := by
  constructor <;> simp [CodeToken.isPunct_of_isPunct isDot]

theorem Piece.trimmed_of_smooth {piece : Piece} (smooth : ∀ token ∈ piece.tokens, token.Smooth) :
    piece.trimmed = piece.tokens := by
  have last := smooth piece.last (List.mem_of_getLast? piece.getLast?_tokens)
  rw [trimmed, last.semicolon, if_neg Bool.false_ne_true]

namespace Code

variable {rule : PieceRule}

/-- Outside of blocks and parentheses, smooth tokens are all that is left of a statement up to its
semicolon. -/
theorem piecesFrom_of_smooth {scan : PieceScan} (parens : scan.parens = 0)
    (braces : scan.braces = 0) {code : List CodeToken} (smooth : ∀ token ∈ code, token.Smooth) :
    piecesFrom rule (some scan) code = ⟨some code, [], none⟩ ∧
      ∀ semicolon others, semicolon.isPunct ';' = true →
        piecesFrom rule (some scan) (code ++ semicolon :: others) =
          { pieces rule others with here := some (code ++ [semicolon]) } := by
  induction code generalizing scan with
  | nil =>
      refine ⟨by simp [piecesFrom, braces], fun semicolon others ends => ?_⟩
      have stops : scan.step rule semicolon others.head? = none := by
        simp [PieceScan.step, braces, parens, CodeToken.isPunct_of_isPunct ends]
      simp [piecesFrom, stops, pieces, here_piecesFrom_none]
  | cons first rest ih =>
      have own := smooth first List.mem_cons_self
      have goes : ∀ next, scan.step rule first next =
          some { scan with isOpen := scan.isOpen || rule.keepsOpen first } := by
        simp [PieceScan.step, braces, parens, own.opening, own.closing, own.semicolon, own.brace]
      obtain ⟨alone, ended⟩ :=
        @ih { scan with isOpen := scan.isOpen || rule.keepsOpen first } parens braces
          fun token listed => smooth token (List.mem_cons_of_mem _ listed)
      refine ⟨by simp [piecesFrom, goes, alone], fun semicolon others ends => ?_⟩
      simp [piecesFrom, goes, ended semicolon others ends]

theorem pieces_of_smooth {first : CodeToken} {rest : List CodeToken}
    (smooth : ∀ token ∈ first :: rest, token.Smooth) :
    pieces rule (first :: rest) = ⟨some [], [⟨first, rest⟩], none⟩ ∧
      ∀ semicolon, semicolon.isPunct ';' = true →
        pieces rule (first :: rest ++ [semicolon]) =
          ⟨some [], [⟨first, rest ++ [semicolon]⟩], none⟩ := by
  have own := smooth first List.mem_cons_self
  have goes : ∀ next, (PieceScan.start rule first).step rule first next =
      some ⟨0, rule.opens first || rule.keepsOpen first, 0, 0⟩ := by
    simp [PieceScan.start, PieceScan.step, own.opening, own.closing, own.semicolon, own.brace]
  obtain ⟨alone, ended⟩ := @piecesFrom_of_smooth rule
    ⟨0, rule.opens first || rule.keepsOpen first, 0, 0⟩ rfl rfl rest
    fun token listed => smooth token (List.mem_cons_of_mem _ listed)
  refine ⟨by simp [pieces, piecesFrom, goes, alone], fun semicolon ends => ?_⟩
  simp [pieces, piecesFrom, goes, ended semicolon [] ends]

theorem eq_of_pieces_singleton {code : List CodeToken} {piece : Piece}
    (closed : (pieces rule code).unclosed = none) (alone : (pieces rule code).pieces = [piece]) :
    code = piece.tokens := by
  cases code with
  | nil => cases alone
  | cons first rest =>
      obtain ⟨own, after, joined, _, cut, closedAfter⟩ := exists_piece closed
      rw [cut, List.cons.injEq] at alone
      obtain ⟨rfl, none⟩ := alone
      cases after with
      | nil => rw [joined, List.append_nil]
      | cons next behind =>
          obtain ⟨other, _, _, _, some, _⟩ := exists_piece closedAfter
          rw [some] at none
          cases none

theorem exists_value_of_statement {piece : Piece} {value : Expr} {written : Text}
    (read : statement piece = .ret (some value) written) :
    ∃ keyword rest, piece.trimmed = keyword :: rest ∧ keyword.isWord "return" = true ∧
      value = expr rest := by
  unfold statement at read
  dsimp only at read
  split at read
  · cases read
  · rename_i first rest trimmed
    split at read
    · rename_i returns
      split at read
      · cases read
      · cases read
        exact ⟨first, rest, trimmed, returns, rfl⟩
    · split at read
      · cases read
      · split at read
        · cases read
        · split at read
          · rename_i assigns
            obtain ⟨split, _, rfl⟩ := Option.map_eq_some_iff.mp assigns
            split at read <;> cases read
          · split at read
            · cases read
            · split at read <;> cases read

theorem statement_of_return {piece : Piece} {keyword : CodeToken} {rest : List CodeToken}
    (trimmed : piece.trimmed = keyword :: rest) (returns : keyword.isWord "return" = true)
    (nonempty : rest ≠ []) : statement piece = .ret (some (expr rest)) piece.text := by
  simp [statement, trimmed, returns, nonempty]

section

variable {tokens : List Token} {tail : Text} {size : Nat} (chain : Token.Chain tokens tail)
  (located : Token.Located tokens 0 0 size tokens) {name : Text} (named : name.head? ≠ some '/')
  {code : List CodeToken} (inside : code <:+: (ofTokens tokens).tokens)

include chain located named inside

theorem isVariable_expr_iff : ((expr code).isName name || (expr code).isThisField name) = true ↔
    Token.Names tokens name (code.map CodeToken.token) := by
  have asRead : ∀ token ∈ code, token.AsRead :=
    fun token listed => asRead_ofTokens chain token (inside.subset listed)
  rw [Bool.or_eq_true, isName_expr_iff, isThisField_expr_iff asRead named]
  constructor
  · rintro (⟨token, rfl, isName, free⟩ |
      ⟨this, dot, target, rfl, isThis, isDot, isName, noneDot, none⟩)
    · exact .bare isName free
    · exact .field isThis isDot isName ((uncommented_iff located inside).mpr ⟨noneDot, none⟩)
  · intro names
    generalize split : code.map CodeToken.token = spelled at names
    cases names with
    | bare isName free =>
        obtain ⟨token, _, rfl, rfl, isEnd⟩ := List.map_eq_cons_iff.mp split
        cases List.map_eq_nil_iff.mp isEnd
        exact Or.inl ⟨token, rfl, isName, free⟩
    | field isThis isDot isName uncommented =>
        obtain ⟨this, _, rfl, rfl, isFirst⟩ := List.map_eq_cons_iff.mp split
        obtain ⟨dot, _, rfl, rfl, isSecond⟩ := List.map_eq_cons_iff.mp isFirst
        obtain ⟨target, _, rfl, rfl, isEnd⟩ := List.map_eq_cons_iff.mp isSecond
        cases List.map_eq_nil_iff.mp isEnd
        exact Or.inr ⟨this, dot, target, rfl, isThis, isDot, isName,
          (uncommented_iff located inside).mp uncommented⟩

omit chain located named inside in
theorem smooth_of_names (names : Token.Names tokens name (code.map CodeToken.token)) :
    code ≠ [] ∧ ∀ token ∈ code, token.Smooth := by
  generalize split : code.map CodeToken.token = spelled at names
  have nonempty : spelled ≠ [] := by cases names <;> exact List.cons_ne_nil _ _
  have smooth : ∀ token ∈ spelled, token.kind = .ident ∨ token.isPunct '.' = true := by
    cases names with
    | bare isName _ => simp [eq_of_beq (Bool.and_eq_true_iff.mp isName).1]
    | field isThis isDot isName _ =>
        simp [eq_of_beq (Bool.and_eq_true_iff.mp isThis).1, isDot,
          eq_of_beq (Bool.and_eq_true_iff.mp isName).1]
  subst split
  refine ⟨fun none => nonempty (by rw [none]; rfl), fun token listed => ?_⟩
  rcases smooth token.token (List.mem_map_of_mem listed) with isIdent | isDot
  · exact .of_isIdent (by simp [CodeToken.isIdent, Token.isIdent, isIdent])
  · exact .of_isDot isDot

omit chain located named inside in
theorem smooth_of_return {keyword : CodeToken} (returns : keyword.isWord "return" = true)
    (names : Token.Names tokens name (code.map CodeToken.token)) :
    ∀ token ∈ keyword :: code, token.Smooth :=
  List.forall_mem_cons.mpr ⟨.of_isIdent (CodeToken.isIdent_of_isWord returns),
    (smooth_of_names names).2⟩

theorem returns_of_returnsField {body : Body}
    (closed : (pieces statementRule code).unclosed = none)
    (statements : body.statements = (pieces statementRule code).pieces.map statement)
    (returned : body.returnsField name = true) :
    Token.Returns tokens name (code.map CodeToken.token) := by
  unfold Body.returnsField at returned
  rw [statements] at returned
  split at returned
  · rename_i value written alone
    obtain ⟨piece, others, isPiece, read, none⟩ := List.map_eq_cons_iff.mp alone
    rw [List.map_eq_nil_iff.mp none] at isPiece
    obtain ⟨keyword, rest, trimmed, returns, rfl⟩ := exists_value_of_statement read
    have whole := eq_of_pieces_singleton closed isPiece
    have within : rest <:+: piece.tokens := by
      refine List.IsInfix.trans ?_ piece.trimmed_prefix.isInfix
      rw [trimmed]
      exact (List.suffix_cons _ _).isInfix
    rw [whole] at inside ⊢
    have names := (isVariable_expr_iff chain located named (within.trans inside)).mp returned
    by_cases semicolon : piece.last.isPunct ';' = true
    · rw [piece.tokens_of_semicolon semicolon, trimmed]
      simpa using Token.Returns.ended returns names semicolon
    · rw [Piece.trimmed, if_neg semicolon] at trimmed
      rw [trimmed]
      exact .bare returns names
  · cases returned

theorem returnsField_of_piece {body : Body} {piece : Piece} {keyword : CodeToken}
    {rest : List CodeToken}
    (statements : body.statements = (pieces statementRule code).pieces.map statement)
    (alone : (pieces statementRule code).pieces = [piece])
    (trimmed : piece.trimmed = keyword :: rest) (returns : keyword.isWord "return" = true)
    (within : rest <:+: code) (names : Token.Names tokens name (rest.map CodeToken.token)) :
    body.returnsField name = true := by
  unfold Body.returnsField
  rw [statements, alone, List.map_singleton,
    statement_of_return trimmed returns (smooth_of_names names).1]
  exact (isVariable_expr_iff chain located named (within.trans inside)).mpr names

theorem returnsField_of_returns {body : Body}
    (statements : body.statements = (pieces statementRule code).pieces.map statement)
    (returned : Token.Returns tokens name (code.map CodeToken.token)) :
    body.returnsField name = true := by
  have given {piece : Piece} {keyword : CodeToken} {rest : List CodeToken} :=
    @returnsField_of_piece _ _ _ chain located _ named _ inside body piece keyword rest statements
  generalize split : code.map CodeToken.token = spelled at returned
  cases returned with
  | bare returns names =>
      obtain ⟨keyword, rest, rfl, rfl, rfl⟩ := List.map_eq_cons_iff.mp split
      have smooth := smooth_of_return returns names
      exact given (by rw [(pieces_of_smooth smooth).1])
        (@Piece.trimmed_of_smooth ⟨keyword, rest⟩ smooth) returns
        (List.suffix_cons _ _).isInfix names
  | ended returns names ends =>
      obtain ⟨keyword, behind, rfl, rfl, isBehind⟩ := List.map_eq_cons_iff.mp split
      obtain ⟨rest, last, rfl, rfl, isLast⟩ := List.map_eq_append_iff.mp isBehind
      obtain ⟨semicolon, _, rfl, rfl, isEnd⟩ := List.map_eq_cons_iff.mp isLast
      cases List.map_eq_nil_iff.mp isEnd
      have alone := (@pieces_of_smooth statementRule _ _ (smooth_of_return returns names)).2
        semicolon ends
      rw [List.cons_append] at alone
      exact given (by rw [alone]) (Piece.trimmed_of_semicolon ends) returns
        ⟨[keyword], [semicolon], by simp⟩ names

/-- A body returns a field where the tokens in its braces do, and there are no others. -/
theorem returnsField_iff {body : Body} (closed : (pieces statementRule code).unclosed = none)
    (statements : body.statements = (pieces statementRule code).pieces.map statement) :
    body.returnsField name = true ↔ Token.Returns tokens name (code.map CodeToken.token) :=
  ⟨returns_of_returnsField chain located named inside closed statements,
    returnsField_of_returns chain located named inside statements⟩

end

end Code

end JavaRecords
