import JavaRecords.Proofs.Layout.Members

set_option autoImplicit false

namespace JavaRecords

open Code

def DataField.assigned (field : DataField) : Stmt :=
  .assign ⟨"this.".toList ++ field.name, .thisField⟩ .assign (some ⟨field.name, .name⟩)
    ("this.".toList ++ field.name ++ " = ".toList ++ field.name ++ [';'])

/-- What an accessor does. -/
def DataField.returned (field : DataField) : Stmt :=
  .ret (some ⟨field.name, .name⟩) ("return ".toList ++ field.name ++ [';'])

namespace Code

theorem statement_of_assignment {piece : Piece} {code : List CodeToken} {stmt : Stmt}
    (trimmed : piece.trimmed = code) (nonempty : code ≠ [])
    (noReturn : ∀ first ∈ code.head?, first.isWord "return" = false)
    (noCall : constructorCall? code = none) (noStep : leadingStep? code = none)
    (assigns : assignment? code piece.text = some stmt) : statement piece = stmt := by
  cases code with
  | nil => exact absurd rfl nonempty
  | cons first rest =>
      rw [statement, trimmed]
      simp only [noReturn first rfl, noCall, noStep, assigns, Bool.false_eq_true, if_false]

section

variable (space name : Text) (this dot target equals value semicolon : Nat)

def thisFieldCode : List CodeToken :=
  [.ofWord space "this".toList this, .ofMark [] '.' dot, .ofWord [] name target]

def assignmentCode : List CodeToken :=
  thisFieldCode space name this dot target ++ [.ofMark [' '] '=' equals, .ofWord [' '] name value]

def assignmentPiece : Piece :=
  ⟨.ofWord space "this".toList this, [.ofMark [] '.' dot, .ofWord [] name target,
    .ofMark [' '] '=' equals, .ofWord [' '] name value, .ofMark [] ';' semicolon]⟩

theorem pieces_assignment (rest : List CodeToken) :
    pieces statementRule
      ((assignmentPiece space name this dot target equals value semicolon).tokens ++ rest) =
      ⟨some [], assignmentPiece space name this dot target equals value semicolon ::
        (pieces statementRule rest).pieces, (pieces statementRule rest).unclosed⟩ := by
  simp [assignmentPiece, Piece.tokens, pieces, piecesFrom, PieceScan.start, PieceScan.step,
    statementRule]

theorem localDeclaration?_thisField :
    localDeclaration? (thisFieldCode space name this dot target) = none := by
  have read : modifiers (thisFieldCode space name this dot target) =
      .ok ⟨{}, [], thisFieldCode space name this dot target⟩ :=
    modifiers_other (by decide) (by simp)
  rw [localDeclaration?, read]
  simp [thisFieldCode]

theorem splitAssign?_assignment :
    splitAssign? 0 [] (assignmentCode space name this dot target equals value) =
      some ⟨thisFieldCode space name this dot target, .assign, [.ofWord [' '] name value]⟩ := by
  simp [assignmentCode, thisFieldCode, splitAssign?, opensBracket, closesBracket,
    show AssignOp.assign.lead = 0 by decide]

theorem statement_assignment {field : DataField} (free : isKeyword field.name = false) :
    statement (assignmentPiece space field.name this dot target equals value semicolon) =
      field.assigned := by
  have written : (assignmentPiece space field.name this dot target equals value semicolon).text =
      "this.".toList ++ field.name ++ " = ".toList ++ field.name ++ [';'] := by
    simp [assignmentPiece, Piece.text, Piece.tokens]
  have trimmed : (assignmentPiece space field.name this dot target equals value semicolon).trimmed =
      assignmentCode space field.name this dot target equals value := by
    simp [assignmentPiece, assignmentCode, thisFieldCode, Piece.trimmed, Piece.last, Piece.tokens]
  refine statement_of_assignment trimmed (List.cons_ne_nil _ _) ?_ ?_ ?_ ?_
  · simp [assignmentCode, thisFieldCode]
  · simp [assignmentCode, thisFieldCode, constructorCall?]
  · simp [assignmentCode, thisFieldCode, leadingStep?, CodeToken.increment?]
  · rw [written, assignment?, splitAssign?_assignment, Option.map_some, localDeclaration?_thisField]
    simp [thisFieldCode, expr, free, DataField.assigned]

def returnPiece : Piece :=
  ⟨.ofWord space "return".toList this, [.ofWord [' '] name value, .ofMark [] ';' semicolon]⟩

theorem pieces_return (rest : List CodeToken) :
    pieces statementRule ((returnPiece space name this value semicolon).tokens ++ rest) =
      ⟨some [], returnPiece space name this value semicolon :: (pieces statementRule rest).pieces,
        (pieces statementRule rest).unclosed⟩ := by
  simp [returnPiece, Piece.tokens, pieces, piecesFrom, PieceScan.start, PieceScan.step,
    statementRule]

theorem statement_return {field : DataField} (free : isKeyword field.name = false) :
    statement (returnPiece space field.name this value semicolon) = field.returned := by
  have trimmed : (returnPiece space field.name this value semicolon).trimmed =
      [.ofWord space "return".toList this, .ofWord [' '] field.name value] := by
    simp [returnPiece, Piece.trimmed, Piece.last, Piece.tokens]
  rw [statement, trimmed]
  simp [returnPiece, Piece.text, Piece.tokens, DataField.returned, expr, free]

end

theorem exists_laid_assignment (field : DataField) (offset : Nat) :
    ∃ this dot target equals value semicolon, laid offset field.assignmentTokens =
      (assignmentPiece "\n        ".toList field.name this dot target equals value
        semicolon).tokens :=
  ⟨_, _, _, _, _, _, rfl⟩

theorem exists_laid_return (field : DataField) (offset : Nat) :
    ∃ this value semicolon, laid offset field.returnTokens =
      (returnPiece "\n        ".toList field.name this value semicolon).tokens :=
  ⟨_, _, _, rfl⟩

/-- The statements of a constructor that assigns fields. -/
theorem pieces_assignments {fields : List DataField}
    (free : ∀ field ∈ fields, isKeyword field.name = false) (offset : Nat) :
    (pieces statementRule (laid offset (fields.flatMap DataField.assignmentTokens))).unclosed =
        none ∧
      (pieces statementRule (laid offset (fields.flatMap DataField.assignmentTokens))).pieces.map
        statement = fields.map DataField.assigned := by
  induction fields generalizing offset with
  | nil => exact ⟨rfl, rfl⟩
  | cons field rest ih =>
      obtain ⟨closed, others⟩ := ih (fun other listed => free other (List.mem_cons_of_mem _ listed))
        (offset + Text.byteSize (Token.spell field.assignmentTokens))
      rw [List.flatMap_cons, laid_append]
      obtain ⟨this, dot, target, equals, value, semicolon, here⟩ :=
        exists_laid_assignment field offset
      rw [here, pieces_assignment]
      refine ⟨closed, ?_⟩
      rw [List.map_cons, List.map_cons, others, statement_assignment _ _ _ _ _ _ _
        (free field List.mem_cons_self)]

def blockText (inside : List Token) : Text :=
  '\x7b' :: (Token.spell inside ++ "\n    \x7d".toList)

theorem exists_laid_block (inside : List Token) (offset : Nat) :
    ∃ start stop, laid offset (blockTokens inside) = .ofMark [' '] '\x7b' start ::
      (laid (offset + 2) inside ++ [.ofMark "\n    ".toList '\x7d' stop]) := by
  simp only [blockTokens, laid_mark, laid_append, laid_nil]
  exact ⟨_, _, rfl⟩

theorem text_laid_block (inside : List Token) (offset : Nat) :
    text (laid offset (blockTokens inside)) = blockText inside := by
  rw [blockTokens, text_laid]
  simp [blockText]

theorem body_block {inside : List Token} {statements : List Stmt} {offset : Nat}
    (closed : (pieces statementRule (laid (offset + 2) inside)).unclosed = none)
    (each : (pieces statementRule (laid (offset + 2) inside)).pieces.map statement = statements) :
    body (laid offset (blockTokens inside)) = .ok ⟨blockText inside, statements⟩ := by
  have inner : (laid offset (blockTokens inside)).tail.dropLast = laid (offset + 2) inside := by
    obtain ⟨start, stop, block⟩ := exists_laid_block inside offset
    rw [block, List.tail_cons, List.dropLast_concat]
  simp only [body, inner, closed, each, text_laid_block]

theorem block?_block {last : CodeToken} (isLast : last.isPunct '\x7d' = true) (inside : List Token)
    (offset : Nat) :
    block? last (laid offset (blockTokens inside)) = some (laid offset (blockTokens inside)) := by
  obtain ⟨start, stop, block⟩ := exists_laid_block inside offset
  rw [block]
  simp [block?, isLast]

end Code

def DataField.param (field : DataField) : Param :=
  ⟨field.name, field.ty.text, {}, ['.', '.', '.'].isSuffixOf field.ty.text⟩

namespace Code

theorem param_laid {field : DataField} (proper : field.ty.isProper = true) (offset : Nat)
    (space : Text) : param (laid offset (field.paramTokens space)) = .ok field.param := by
  have typed := typeCode_laid proper offset space
  obtain ⟨last, earlier, reversed, ofType⟩ := typed.exists_reverse
  simp only [DataField.paramTokens, laid_append, laid_word, laid_nil]
  rw [param, typed.modifiers_eq _ (by simp)]
  simp only [List.reverse_append, List.reverse_singleton, List.singleton_append, reversed,
    stripDims_ofWord, CodeToken.isIdent_ofWord, if_true, CodeToken.text_ofWord, ofType]
  simp [withDims, DataField.param]

/-- A parameter goes in front of the first part. -/
theorem splitParams_param {field : DataField} (proper : field.ty.isProper = true) (offset : Nat)
    (space : Text) {rest : List CodeToken} {parts : List (List CodeToken)}
    (split : splitParams 0 rest = [] :: parts) :
    splitParams 0 (laid offset (field.paramTokens space) ++ rest) =
      laid offset (field.paramTokens space) :: parts := by
  have typed := typeCode_laid proper offset space
  simp only [DataField.paramTokens, laid_append, laid_word, laid_nil, List.append_assoc,
    List.singleton_append]
  rw [typed.passes goesOver_splitParams, goesOver_splitParams.word, split, pushPart,
    foldr_pushPart]

theorem laid_paramTokens_ne_nil (field : DataField) (offset : Nat) (space : Text) :
    laid offset (field.paramTokens space) ≠ [] := by
  simp [DataField.paramTokens, laid_append]

/-- Parameters are cut at the commas between them. -/
theorem mapM_splitParams {first : DataField} {others : List DataField}
    (proper : ∀ field ∈ first :: others, field.ty.isProper = true) (offset : Nat) (space : Text) :
    ∃ parts, splitParams 0
        (laid offset (first.paramTokens space ++ DataField.furtherTokens others)) = parts ∧
          (∀ part ∈ parts, part ≠ []) ∧
      parts.mapM param = .ok ((first :: others).map DataField.param) := by
  induction others generalizing first offset space with
  | nil =>
      have own := proper first List.mem_cons_self
      refine ⟨[laid offset (first.paramTokens space)], ?_, ?_, ?_⟩
      · rw [laid_append]
        exact splitParams_param own offset space rfl
      · simpa using laid_paramTokens_ne_nil first offset space
      · rw [List.mapM_cons, param_laid own]
        rfl
  | cons next rest ih =>
      have own := proper first List.mem_cons_self
      obtain ⟨parts, split, nonempty, each⟩ := ih
        (fun field listed => proper field (List.mem_cons_of_mem _ listed))
        (offset + Text.byteSize (Token.spell (first.paramTokens space)) + 0 + Text.byteSize [','])
        [' ']
      refine ⟨laid offset (first.paramTokens space) :: parts, ?_, ?_, ?_⟩
      · rw [laid_append]
        refine splitParams_param own offset space ?_
        have further : DataField.furtherTokens (next :: rest) =
            Token.mark [] ',' :: (next.paramTokens [' '] ++ DataField.furtherTokens rest) := rfl
        rw [further, laid_mark, ← split]
        simp [splitParams, opensBracket, closesBracket]
      · simpa using ⟨laid_paramTokens_ne_nil first offset space, nonempty⟩
      · rw [List.mapM_cons, param_laid own, each]
        rfl

theorem params_laid {fields : List DataField}
    (proper : ∀ field ∈ fields, field.ty.isProper = true) (offset : Nat) :
    params (laid offset (DataClass.paramTokens fields)) = .ok (fields.map DataField.param) := by
  cases fields with
  | nil => rfl
  | cons first others =>
      obtain ⟨parts, split, nonempty, each⟩ := mapM_splitParams proper offset []
      have kept : (parts.filter fun part => !part.isEmpty) = parts :=
        List.filter_eq_self.mpr fun part listed => by simpa using nonempty part listed
      rw [params, DataClass.paramTokens, split, kept, each]

/-- The parentheses of some parameters, and a block after them. -/
def callableTokens (parameters inside : List Token) : List Token :=
  Token.mark [] '(' :: (parameters ++ Token.mark [] ')' :: blockTokens inside)

section

variable {parameters inside : List Token}

theorem exists_laid_callable (parameters inside : List Token) (offset : Nat) :
    ∃ paren inner closing block, laid offset (callableTokens parameters inside) =
      .ofMark [] '(' paren :: (laid inner parameters ++
        .ofMark [] ')' closing :: laid block (blockTokens inside)) := by
  simp only [callableTokens, laid_mark, laid_append]
  exact ⟨_, _, _, _, rfl⟩

/-- A constructor or a method ends with its block. -/
theorem ends_of_callable (front : List CodeToken) (scanned : ∀ token ∈ front, token.Scanned)
    (flat : Unbracketed parameters) (flatInside : Unbracketed inside) (offset : Nat) :
    Ends .fresh (front ++ laid offset (callableTokens parameters inside)) := by
  obtain ⟨paren, inner, closing, block, callable⟩ := exists_laid_callable parameters inside offset
  obtain ⟨start, stop, braces⟩ := exists_laid_block inside block
  rw [callable, braces]
  exact ends_of_body scanned (by simp) (flat.nested _) (by simp) (by simp) (flatInside.nested _)
    (by simp)

theorem nested_callable {front : List CodeToken} (nested : Token.Nested (front.map CodeToken.token))
    (flat : Unbracketed parameters) (flatInside : Unbracketed inside) (offset : Nat) :
    Token.Nested ((front ++ laid offset (callableTokens parameters inside)).map
      CodeToken.token) := by
  obtain ⟨paren, inner, closing, block, callable⟩ := exists_laid_callable parameters inside offset
  obtain ⟨start, stop, braces⟩ := exists_laid_block inside block
  have parens : Token.Nested (CodeToken.token (.ofMark [] '(' paren) ::
      ((laid inner parameters).map CodeToken.token ++
        [CodeToken.token (.ofMark [] ')' closing)])) :=
    nested_between rfl (flat.nested inner) rfl
  have block : Token.Nested (CodeToken.token (.ofMark [' '] '\x7b' start) ::
      ((laid (block + 2) inside).map CodeToken.token ++
        [CodeToken.token (.ofMark "\n    ".toList '\x7d' stop)])) :=
    nested_between rfl (flatInside.nested _) rfl
  rw [callable, braces]
  simpa using nested.append (parens.append block)

theorem close_callable {paren closing : Nat} (flat : Unbracketed parameters) (inner : Nat)
    (rest : List CodeToken) : close '(' ')' (.ofMark [] '(' paren)
      (laid inner parameters ++ .ofMark [] ')' closing :: rest) =
        .ok ⟨laid inner parameters, .ofMark [] ')' closing, rest⟩ := by
  have lacks (c : Char) (bracket : c ∈ ['(', ')', '\x7b', '\x7d']) :
      ∀ token ∈ laid inner parameters, token.isPunct c = false :=
    isPunct_laid fun own inside => flat own inside c bracket
  rw [close, close?_of_lacks
    (fun token listed => ⟨lacks '(' (by simp) token listed, lacks ')' (by simp) token listed⟩)
    (by simp)]

/-- What ends with a block in braces ends with its closing brace. -/
theorem isPunct_last {piece : Piece} (front : List CodeToken) {offset : Nat}
    (tokens : piece.tokens = front ++ laid offset (callableTokens parameters inside)) :
    piece.last.isPunct '\x7d' = true := by
  obtain ⟨paren, inner, closing, block, callable⟩ := exists_laid_callable parameters inside offset
  obtain ⟨start, stop, braces⟩ := exists_laid_block inside block
  have final : piece.tokens.getLast? = some (.ofMark "\n    ".toList '\x7d' stop) := by
    rw [tokens, callable, braces]
    simp only [← List.cons_append, ← List.append_assoc, List.getLast?_concat]
  rw [piece.getLast?_tokens] at final
  rw [Option.some.inj final]
  simp

end

theorem unbracketed_param (field : DataField) (space : Text) :
    Unbracketed (field.paramTokens space) := by
  have name : Unbracketed [Token.word [' '] field.name] := by simp [Unbracketed]
  exact (unbracketed_type space field.ty).append name

theorem unbracketed_params (fields : List DataField) :
    Unbracketed (DataClass.paramTokens fields) := by
  cases fields with
  | nil => exact unbracketed_nil
  | cons first others =>
      refine (unbracketed_param first []).append (unbracketed_flatMap fun field _ => ?_)
      have comma : Unbracketed [Token.mark [] ','] := by simp [Unbracketed]
      exact comma.append (unbracketed_param field _)

theorem unbracketed_assignments (fields : List DataField) :
    Unbracketed (fields.flatMap DataField.assignmentTokens) :=
  unbracketed_flatMap fun field _ => by simp [Unbracketed, DataField.assignmentTokens]

theorem ofWord?_of_isFreeName {name : Text} (free : name.isFreeName = true)
    (notSealed : name ≠ "sealed".toList) : Modifier.ofWord? name = none := by
  have spelled : ∀ modifier ∈ Modifier.all, Text.isFreeName modifier.spelling.toList = true →
      modifier.spelling.toList = "sealed".toList := by decide +kernel
  refine List.find?_eq_none.mpr fun modifier listed same => notSealed ?_
  have own := spelled modifier listed
  rw [eq_of_beq same] at own
  exact own free

theorem typeKeyword?_of_isFreeName {name space space' : Text} {start start' : Nat}
    {rest : List CodeToken} (free : name.isFreeName = true) :
    typeKeyword? (.ofWord space name start :: .ofMark space' '(' start' :: rest) = none := by
  have none : ∀ keyword ∈ ["class", "interface", "enum"],
      Text.isFreeName keyword.toList = false := by decide +kernel
  have other : ∀ keyword ∈ ["class", "interface", "enum"], (name == keyword.toList) = false := by
    intro keyword listed
    refine beq_eq_false_iff_ne.mpr fun same => ?_
    have absent := none keyword listed
    rw [← same, free] at absent
    cases absent
  simp only [typeKeyword?, CodeToken.isPunct_ofWord, CodeToken.isWord_ofWord, Bool.false_and,
    other "class" (by simp), other "interface" (by simp), other "enum" (by simp),
    Bool.false_eq_true, if_false]
  cases rest <;> simp only [CodeToken.isIdent_ofMark, Bool.false_and, Bool.false_eq_true, if_false,
    ite_self]

end Code

def DataClass.constructorNode (data : DataClass) (source : Excerpt) : Node :=
  .constructor
    { name := data.name
      modifiers := {}
      typeParams := none
      params := data.fields.map DataField.param
      body := ⟨blockText (data.fields.flatMap DataField.assignmentTokens),
        data.fields.map DataField.assigned⟩
      source }

theorem DataClass.exists_laid_constructor (data : DataClass) (offset : Nat) :
    ∃ start after, laid offset data.constructorTokens =
      .ofWord "\n\n    ".toList data.name start ::
        laid after (callableTokens (paramTokens data.fields)
          (data.fields.flatMap DataField.assignmentTokens)) :=
  ⟨_, _, rfl⟩

theorem DataClass.Proper.constructorNode_eq {data : DataClass} (proper : data.Proper)
    {space : Text} {start paren closing : Nat} {last : CodeToken} {source : Excerpt}
    (isLast : last.isPunct '\x7d' = true) (inner block : Nat) :
    Code.constructorNode (.ofWord space data.name start) (.ofMark [] '(' paren)
      (laid inner (paramTokens data.fields) ++ .ofMark [] ')' closing ::
        laid block (blockTokens (data.fields.flatMap DataField.assignmentTokens)))
      last none {} source = .ok (data.constructorNode source) := by
  obtain ⟨closed, each⟩ := pieces_assignments proper.free (block + 2)
  unfold Code.constructorNode
  rw [close_callable (unbracketed_params _)]
  simp only [bind, Except.bind, params_laid proper.types, block?_block isLast,
    body_block closed each]
  rfl

theorem DataClass.Proper.writes_constructor {data : DataClass} (proper : data.Proper) :
    Writes data.name data.constructorTokens fun _ => data.constructorNode where
  ends offset := by
    obtain ⟨start, after, laid⟩ := data.exists_laid_constructor offset
    rw [laid]
    exact ends_of_callable [_] (by simp [scanned_ofWord])
      (unbracketed_params data.fields) (unbracketed_assignments data.fields) after
  nested offset := by
    obtain ⟨start, after, laid⟩ := data.exists_laid_constructor offset
    rw [laid]
    have name : Token.Nested ([CodeToken.ofWord "\n\n    ".toList data.name start].map
        CodeToken.token) := rfl
    exact nested_callable name (unbracketed_params data.fields)
      (unbracketed_assignments data.fields) after
  shape offset piece position source tokens := by
    obtain ⟨start, after, laid⟩ := data.exists_laid_constructor offset
    rw [laid] at tokens
    have isLast := isPunct_last [_] tokens
    obtain ⟨paren, inner, closing, block, callable⟩ := exists_laid_callable
      (paramTokens data.fields) (data.fields.flatMap DataField.assignmentTokens) after
    rw [callable] at tokens
    have read : modifiers piece.tokens = .ok ⟨{}, [], piece.tokens⟩ := by
      rw [tokens]
      exact modifiers_other (ofWord?_of_isFreeName proper.name proper.notSealed) (by simp)
    have other : typeKeyword? piece.tokens = none := by
      rw [tokens]
      exact typeKeyword?_of_isFreeName proper.name
    rw [memberShape_of_modifiers (by rw [tokens]; simp) read other, tokens, memberNode_ofWord]
    simp only [namedNode, CodeToken.isIdent_ofWord, CodeToken.text_ofWord, beq_self_eq_true,
      CodeToken.isPunct_ofMark, Bool.and_true, if_true, proper.constructorNode_eq isLast]
    rfl

def DataField.accessorNode (field : DataField) (source : Excerpt) : Node :=
  .method
    { name := field.name
      modifiers := ⟨[.pub], []⟩
      typeParams := none
      returnTy := field.ty.text
      params := []
      body := some ⟨blockText field.returnTokens, [field.returned]⟩
      source }

theorem unbracketed_return (field : DataField) : Unbracketed field.returnTokens := by
  simp [Unbracketed, DataField.returnTokens]

theorem DataField.exists_laid_accessor {field : DataField} (proper : field.ty.isProper = true)
    (offset : Nat) : ∃ code start start' after, TypeCode field.ty code ∧
      laid offset field.accessorTokens = .ofWord "\n\n    ".toList "public".toList start ::
        (code ++ .ofWord [' '] field.name start' ::
          laid after (callableTokens [] field.returnTokens)) := by
  simp only [accessorTokens, laid_word, laid_append]
  exact ⟨_, _, _, _, typeCode_laid proper _ _, rfl⟩

theorem DataField.methodNode_eq {field : DataField} {code : List CodeToken}
    (typed : TypeCode field.ty code) (free : isKeyword field.name = false) {space : Text}
    {start paren closing : Nat} {last : CodeToken} {source : Excerpt}
    (isLast : last.isPunct '\x7d' = true) (block : Nat) :
    methodNode ⟨.method, code ++ [.ofWord space field.name start], .ofMark [] '(' paren,
      .ofMark [] ')' closing :: laid block (blockTokens field.returnTokens)⟩ last none ⟨[.pub], []⟩
        source = .ok (field.accessorNode source) := by
  obtain ⟨final, earlier, reversed, ofType⟩ := typed.exists_reverse
  obtain ⟨this, value, semicolon, returned⟩ := exists_laid_return field (block + 2)
  have pieces : pieces statementRule (laid (block + 2) field.returnTokens) =
      ⟨some [], [returnPiece "\n        ".toList field.name this value semicolon], none⟩ := by
    rw [returned, ← List.append_nil (Piece.tokens _), pieces_return]
    rfl
  have isBody : body (laid block (blockTokens field.returnTokens)) =
      .ok ⟨blockText field.returnTokens, [field.returned]⟩ :=
    body_block (by rw [pieces]) (by
      rw [pieces, List.map_singleton, statement_return _ _ _ _ free])
  have enclosed : close '(' ')' (.ofMark [] '(' paren)
      (.ofMark [] ')' closing :: laid block (blockTokens field.returnTokens)) =
      .ok ⟨[], .ofMark [] ')' closing, laid block (blockTokens field.returnTokens)⟩ :=
    close_callable unbracketed_nil 0 _
  have none : params [] = .ok [] := rfl
  simp only [methodNode, List.reverse_append, List.reverse_singleton, List.singleton_append,
    reversed, CodeToken.isIdent_ofWord, if_true, enclosed, none, bind, Except.bind, pure,
    Except.pure, block?_block isLast, isBody, Except.map, ofType]
  rfl

theorem DataField.writes_accessor {field : DataField} (proper : field.ty.isProper = true)
    (free : isKeyword field.name = false) (className : Text) :
    Writes className field.accessorTokens fun _ => field.accessorNode where
  ends offset := by
    obtain ⟨code, start, start', after, typed, laid⟩ := exists_laid_accessor proper offset
    rw [laid]
    have front : ∀ token ∈ .ofWord "\n\n    ".toList "public".toList start ::
        (code ++ [.ofWord [' '] field.name start']), token.Scanned := by
      simp only [List.mem_cons, List.mem_append, List.not_mem_nil, or_false]
      rintro token (rfl | listed | rfl)
      · exact scanned_ofWord
      · exact typed.scanned token listed
      · exact scanned_ofWord
    simpa using ends_of_callable _ front unbracketed_nil (unbracketed_return field) after
  nested offset := by
    obtain ⟨code, start, start', after, typed, laid⟩ := exists_laid_accessor proper offset
    rw [laid]
    have front : Token.Nested ((.ofWord "\n\n    ".toList "public".toList start ::
        (code ++ [.ofWord [' '] field.name start'])).map CodeToken.token) := by
      refine nested_of_no_bracket fun token listed c bracket => ?_
      have others : ∀ c ∈ ['(', ')', '\x7b', '\x7d'], c ∉ ['<', '>', '[', ']', ','] := by simp
      simp only [List.mem_cons, List.mem_append, List.not_mem_nil, or_false] at listed
      rcases listed with rfl | listed | rfl
      · rfl
      · exact typed.plain token listed c (others c bracket)
      · rfl
    simpa using nested_callable front unbracketed_nil (unbracketed_return field) after
  shape offset piece position source tokens := by
    obtain ⟨code, start, start', after, typed, laid⟩ := exists_laid_accessor proper offset
    rw [laid] at tokens
    have isLast := isPunct_last (_ :: (code ++ [_])) (by simpa using tokens)
    obtain ⟨paren, inner, closing, block, callable⟩ :=
      exists_laid_callable [] field.returnTokens after
    rw [callable, laid_nil, List.nil_append] at tokens
    have own := typed.modifiers_eq (.ofWord [' '] field.name start' :: .ofMark [] '(' paren ::
      .ofMark [] ')' closing :: Code.laid block (blockTokens field.returnTokens)) (by simp)
    have read := modifiers_word (.ofWord "\n\n    ".toList "public".toList start) rfl
      (show Modifier.ofWord? "public".toList = some .pub by decide) (typed.lacks _) own
    rw [← tokens] at read
    rw [memberShape_of_modifiers (by rw [tokens]; simp) read (typed.typeKeyword?_eq _),
      typed.memberNode_eq (by simp), typed.declarationNode_method,
      methodNode_eq typed free isLast]
    rfl

end JavaRecords
