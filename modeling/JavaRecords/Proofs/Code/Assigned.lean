import JavaRecords.Proofs.Code.Written
import JavaRecords.Proofs.Indexed.Pieces
import JavaRecords.Proofs.Layout.Bodies
import JavaRecords.Proofs.Parse.Blocks

set_option autoImplicit false

namespace JavaRecords

namespace Token

/-- Tokens set a field of `this` to a name that is no keyword. No comment among the tokens `all` of
the source stands between `this` and the field. -/
def SetsField (all : List Token) (field value : Text) (tokens : List Token) : Prop :=
  ∃ this dot target equals name, tokens = [this, dot, target, equals, name] ∧
    this.isWord "this".toList = true ∧ dot.isPunct '.' = true ∧ target.isWord field = true ∧
    equals.isPunct '=' = true ∧ name.isWord value = true ∧ isKeyword value = false ∧
    ∀ token ∈ between all this.stop target.start, token.isComment = false

/-- Tokens set fields of `this` to names, in order. Each of these assignments has a semicolon behind
it, which only the last one may lack. -/
inductive SetsFields (all : List Token) : List (Text × Text) → List Token → Prop
  | nil : SetsFields all [] []
  | last {field value : Text} {tokens : List Token} (sets : SetsField all field value tokens) :
      SetsFields all [(field, value)] tokens
  | cons {field value : Text} {rest : List (Text × Text)} {tokens others : List Token}
      {semicolon : Token} (sets : SetsField all field value tokens)
      (ends : semicolon.isPunct ';' = true) (more : SetsFields all rest others) :
      SetsFields all ((field, value) :: rest) (tokens ++ semicolon :: others)

theorem setsFields_nil_iff {all tokens : List Token} : SetsFields all [] tokens ↔ tokens = [] := by
  constructor
  · intro sets
    cases sets
    rfl
  · rintro rfl
    exact .nil

theorem setsFields_cons_iff {all tokens : List Token} {pair : Text × Text}
    {rest : List (Text × Text)} : SetsFields all (pair :: rest) tokens ↔
      (rest = [] ∧ SetsField all pair.1 pair.2 tokens) ∨
        ∃ run semicolon others, tokens = run ++ semicolon :: others ∧
          SetsField all pair.1 pair.2 run ∧ semicolon.isPunct ';' = true ∧
          SetsFields all rest others := by
  constructor
  · intro sets
    cases sets with
    | last sets => exact Or.inl ⟨rfl, sets⟩
    | cons sets ends more => exact Or.inr ⟨_, _, _, rfl, sets, ends, more⟩
  · rintro (⟨rfl, sets⟩ | ⟨run, semicolon, others, rfl, sets, ends, more⟩)
    · exact .last sets
    · exact .cons sets ends more

variable {kind : TokenKind} {text rest : Text}

/-- A comment starts with a slash, and an identifier with a character that can start one. -/
theorem ReadsAs.exists_first (reads : ReadsAs kind text rest) :
    ∃ c word, text = c :: word ∧ Text.isSpace c = false ∧ (kind.isComment = true → c = '/') ∧
      (kind = .ident → isIdentStart c = true) := by
  obtain ⟨c, word, rfl, visible, read⟩ := reads
  refine ⟨c, word, rfl, visible, ?_⟩
  have block : ∀ body, commentKind body ≠ .ident := by
    intro body
    unfold commentKind
    repeat' split
    all_goals simp
  rw [readToken_eq] at read
  repeat' split at read
  · rename_i start
    obtain ⟨rfl, _⟩ := (run_eq_iff _ _ _ _ _ _).mp read
    exact ⟨fun _ => start.1, nofun⟩
  · rename_i start
    obtain ⟨rfl, _⟩ := enclosed_eq_ok read
    exact ⟨fun _ => start.1, fun same => absurd same (block _)⟩
  · obtain ⟨rfl, _⟩ := enclosed_eq_ok read
    exact ⟨nofun, nofun⟩
  · obtain ⟨rfl, _⟩ := enclosed_eq_ok read
    exact ⟨nofun, nofun⟩
  · obtain ⟨rfl, _⟩ := enclosed_eq_ok read
    exact ⟨nofun, nofun⟩
  · obtain ⟨rfl, _⟩ := (run_eq_iff _ _ _ _ _ _).mp read
    exact ⟨nofun, nofun⟩
  · rename_i start
    obtain ⟨rfl, _⟩ := (run_eq_iff _ _ _ _ _ _).mp read
    exact ⟨nofun, fun _ => start⟩
  · cases read
    exact ⟨nofun, nofun⟩

end Token

theorem Text.trimStart_append {space : Text} {c : Char} (blank : space.Blank)
    (visible : isSpace c = false) (rest : Text) : trimStart (space ++ c :: rest) = c :: rest :=
  (takeWhile_isSpace blank visible rest).2

theorem Text.dropWhile_dot {space : Text} {c : Char} (blank : space.Blank) (other : c ≠ '.')
    (rest : Text) : (space ++ c :: rest).dropWhile (· == '.') = space ++ c :: rest := by
  cases space with
  | nil => simp [other]
  | cons d space =>
      have differs : d ≠ '.' := by
        rintro rfl
        exact absurd (blank '.' List.mem_cons_self) (by decide)
      simp [differs]

namespace CodeToken

/-- A token as it was read: blank text stands before it, or a comment behind blank text, and a name
starts as a name does. -/
structure AsRead (code : CodeToken) : Prop where
  blank : code.comments = [] → code.lead.Blank
  comment : code.comments ≠ [] → ∃ space word, space.Blank ∧ code.lead = space ++ '/' :: word
  name : code.isIdent = true →
    ∃ c word, code.text = c :: word ∧ Text.isSpace c = false ∧ Token.isIdentStart c = true

theorem AsRead.of_chain {code : CodeToken} {tail : Text} (chain : Token.Chain code.tokens tail)
    (bound : code.Bound) : code.AsRead where
  blank none := by
    rw [tokens, none] at chain
    simpa [lead, none] using chain.1
  comment some := by
    obtain ⟨first, rest, comments⟩ := List.exists_cons_of_ne_nil some
    rw [tokens, comments] at chain
    obtain ⟨c, word, text, _, slash, _⟩ := chain.2.1.exists_first
    rw [slash (bound.comments first (by simp [comments]))] at text
    exact ⟨first.space, word ++ (Token.spell rest ++ code.token.space), chain.1,
      by simp [lead, comments, text]⟩
  name isIdent := by
    obtain ⟨_, _, reads, _⟩ := Token.chain_append.mp chain
    obtain ⟨c, word, text, visible, _, start⟩ := reads.exists_first
    exact ⟨c, word, text, visible, start (eq_of_beq isIdent)⟩

/-- A token that is no `=` ends no assignment operator. -/
theorem Marked.unassigned {code : CodeToken} (marked : code.Marked)
    (other : code.isPunct '=' = false) : code.assign = none := by
  cases assign : code.assign with
  | none => rfl
  | some op =>
      have isSign := marked (by rw [assign]; rfl)
      rw [other] at isSign
      cases isSign

/-- A name and what stands before it, without blank text at the start, is the name or a comment. -/
theorem AsRead.trimmed {code : CodeToken} (asRead : code.AsRead) (isIdent : code.isIdent = true) :
    (code.comments = [] ∧
        Text.trimStart ((code.lead ++ code.text).dropWhile (· == '.')) = code.text) ∨
      code.comments ≠ [] ∧ ∃ rest,
        Text.trimStart ((code.lead ++ code.text).dropWhile (· == '.')) = '/' :: rest := by
  by_cases none : code.comments = []
  · obtain ⟨c, word, text, visible, start⟩ := asRead.name isIdent
    have noDot := (Token.plain_of_identStart start).2.2.2
    have blank := asRead.blank none
    refine Or.inl ⟨none, ?_⟩
    rw [text, Text.dropWhile_dot blank noDot, Text.trimStart_append blank visible]
  · obtain ⟨space, comment, blank, lead⟩ := asRead.comment none
    refine Or.inr ⟨none, comment ++ code.text, ?_⟩
    rw [lead, List.append_assoc, List.cons_append, Text.dropWhile_dot blank (by decide),
      Text.trimStart_append blank (by decide)]

end CodeToken

namespace Piece

variable {first : CodeToken} {rest : List CodeToken}

theorem trimmed_prefix (piece : Piece) : piece.trimmed <+: piece.tokens := by
  unfold trimmed
  split
  · exact List.dropLast_prefix _
  · exact List.prefix_rfl

theorem tokens_of_semicolon (piece : Piece) (ends : piece.last.isPunct ';' = true) :
    piece.tokens = piece.trimmed ++ [piece.last] := by
  rw [trimmed, if_pos ends, piece.dropLast_append_last]

theorem trimmed_of_semicolon {semicolon : CodeToken} (ends : semicolon.isPunct ';' = true) :
    (⟨first, rest ++ [semicolon]⟩ : Piece).trimmed = first :: rest := by
  have last : (⟨first, rest ++ [semicolon]⟩ : Piece).last = semicolon := by
    simp [Piece.last]
  rw [trimmed, last, if_pos ends, tokens, ← List.cons_append, List.dropLast_concat]

end Piece

namespace Code

theorem asRead_ofTokens {tokens : List Token} {tail : Text} (chain : Token.Chain tokens tail) :
    ∀ code ∈ (ofTokens tokens).tokens, code.AsRead := by
  intro code listed
  have bound := (bound_ofTokens tokens).1
  rw [← flat_ofTokens tokens, Token.chain_append] at chain
  obtain ⟨before, after, split⟩ := List.append_of_mem listed
  have inside : [code] <:+: (ofTokens tokens).tokens := ⟨before, after, by simp [split]⟩
  obtain ⟨rest, own⟩ := chain_of_infix chain.1 inside
  exact .of_chain (by simpa [CodeToken.tokens] using own) (bound code listed)

variable {this dot target : CodeToken} {name : Text}

/-- A field of `this` is found under its name if no comment stands before the name. -/
theorem ident?_thisField_iff (isThis : this.isWord "this" = true) (isDot : dot.isPunct '.' = true)
    (isIdent : target.isIdent = true) (dotRead : dot.AsRead) (asRead : target.AsRead)
    (named : name.head? ≠ some '/') :
    Expr.ident? ⟨text [this, dot, target], .thisField⟩ = some name ↔
      dot.comments = [] ∧ target.comments = [] ∧ target.text = name := by
  have first : this.text = "this".toList := by
    simp only [CodeToken.isWord, Token.isWord, Bool.and_eq_true, beq_iff_eq] at isThis
    exact isThis.2
  have mark : dot.text = ['.'] := (ClassLayout.isPunct_text isDot).2
  have found : Expr.ident? ⟨text [this, dot, target], .thisField⟩ = some (Text.trimStart
      ((Text.trimStart (dot.lead ++ '.' :: (target.lead ++ target.text))).dropWhile
        (· == '.'))) := by
    simp [Expr.ident?, first, mark]
  rw [found, Option.some.injEq]
  by_cases none : dot.comments = []
  · rw [Text.trimStart_append (dotRead.blank none) (by decide),
      List.dropWhile_cons_of_pos (by decide)]
    rcases asRead.trimmed isIdent with ⟨bare, same⟩ | ⟨commented, rest, same⟩
    · rw [same]
      simp [none, bare]
    · rw [same]
      refine ⟨fun equal => ?_, fun all => absurd all.2.1 commented⟩
      rw [← equal] at named
      exact absurd rfl named
  · obtain ⟨space, comment, blank, lead⟩ := dotRead.comment none
    rw [lead, List.append_assoc, List.cons_append, Text.trimStart_append blank (by decide),
      List.dropWhile_cons_of_neg (by decide), ← List.nil_append ('/' :: _),
      Text.trimStart_append Text.blank_nil (by decide)]
    refine ⟨fun equal => ?_, fun all => absurd all.1 none⟩
    rw [← equal] at named
    exact absurd rfl named

theorem expr_thisField (isThis : this.isWord "this" = true) (isDot : dot.isPunct '.' = true)
    (isIdent : target.isIdent = true) :
    expr [this, dot, target] = ⟨text [this, dot, target], .thisField⟩ := by
  simp [expr, isThis, isDot, isIdent]

/-- An expression that is no other one is a name or a field of `this`. -/
theorem cases_shape_expr (part : List CodeToken) : (expr part).shape = .other ∨
    (∃ token, part = [token] ∧ (expr part).shape = .name ∧ token.isIdent = true ∧
      isKeyword token.text = false) ∨
    ∃ this dot field, part = [this, dot, field] ∧ (expr part).shape = .thisField ∧
      this.isWord "this" = true ∧ dot.isPunct '.' = true ∧ field.isIdent = true := by
  unfold expr
  dsimp only
  split
  · rename_i token
    split
    · rename_i isName
      simp only [Bool.and_eq_true, Bool.not_eq_true'] at isName
      exact Or.inr (Or.inl ⟨token, rfl, rfl, isName⟩)
    · exact Or.inl rfl
  · rename_i this dot field
    split
    · rename_i isField
      simp only [Bool.and_eq_true] at isField
      exact Or.inr (Or.inr ⟨this, dot, field, rfl, rfl, isField.1.1, isField.1.2, isField.2⟩)
    · exact Or.inl rfl
  · exact Or.inl rfl

theorem isThisField_expr_iff {code : List CodeToken} (asRead : ∀ token ∈ code, token.AsRead)
    (named : name.head? ≠ some '/') : (expr code).isThisField name = true ↔
      ∃ this dot target, code = [this, dot, target] ∧ this.isWord "this" = true ∧
        dot.isPunct '.' = true ∧ target.token.isWord name = true ∧
        dot.comments = [] ∧ target.comments = [] := by
  constructor
  · intro found
    obtain ⟨shape, isName⟩ := Bool.and_eq_true_iff.mp found
    have isField := eq_of_beq shape
    obtain other | ⟨_, _, other, _⟩ | ⟨this, dot, target, rfl, _, isThis, isDot, isIdent⟩ :=
      cases_shape_expr code
    · cases other.symm.trans isField
    · cases other.symm.trans isField
    · rw [expr_thisField isThis isDot isIdent] at isName
      obtain ⟨noneDot, none, isText⟩ := (ident?_thisField_iff isThis isDot isIdent
        (asRead dot (by simp)) (asRead target (by simp)) named).mp (eq_of_beq isName)
      refine ⟨this, dot, target, rfl, isThis, isDot, ?_, noneDot, none⟩
      exact Bool.and_eq_true_iff.mpr ⟨isIdent, beq_iff_eq.mpr isText⟩
  · rintro ⟨this, dot, target, rfl, isThis, isDot, isTarget, noneDot, none⟩
    obtain ⟨isIdent, isText⟩ := Bool.and_eq_true_iff.mp isTarget
    have isName := (ident?_thisField_iff isThis isDot isIdent (asRead dot (by simp))
      (asRead target (by simp)) named).mpr ⟨noneDot, none, eq_of_beq isText⟩
    rw [expr_thisField isThis isDot isIdent]
    exact Bool.and_eq_true_iff.mpr ⟨rfl, beq_iff_eq.mpr isName⟩

theorem isName_expr_iff {code : List CodeToken} : (expr code).isName name = true ↔
    ∃ token, code = [token] ∧ token.token.isWord name = true ∧ isKeyword name = false := by
  constructor
  · intro found
    obtain ⟨shape, isText⟩ := Bool.and_eq_true_iff.mp found
    have isName := eq_of_beq shape
    obtain other | ⟨token, rfl, _, isIdent, free⟩ | ⟨_, _, _, _, other, _⟩ := cases_shape_expr code
    · cases other.symm.trans isName
    · have same : token.text = name := by
        simpa [expr] using isText
      refine ⟨token, rfl, ?_, by rw [← same]; exact free⟩
      exact Bool.and_eq_true_iff.mpr ⟨isIdent, beq_iff_eq.mpr same⟩
    · cases other.symm.trans isName
  · rintro ⟨token, rfl, isWord, free⟩
    obtain ⟨isIdent, isText⟩ := Bool.and_eq_true_iff.mp isWord
    have same : token.text = name := eq_of_beq isText
    have named : token.isIdent = true := isIdent
    simp [expr, Expr.isName, same, named, free]

/-- A run of tokens is cut at a token that ends an assignment operator. -/
theorem split_of_splitAssign? {depth : Nat} {before code : List CodeToken} {split : AssignSplit}
    (found : splitAssign? depth before code = some split) :
    ∃ front equals, code = front ++ equals :: split.value ∧ equals.assign = some split.op ∧
      split.target = ((front.reverse ++ before).drop split.op.lead).reverse := by
  fun_induction splitAssign? depth before code with
  | case1 => cases found
  | case2 depth before first rest _ ih =>
      obtain ⟨front, equals, rfl, assigns, target⟩ := ih found
      exact ⟨first :: front, equals, rfl, assigns, by simpa using target⟩
  | case3 depth before first rest _ _ ih =>
      obtain ⟨front, equals, rfl, assigns, target⟩ := ih found
      exact ⟨first :: front, equals, rfl, assigns, by simpa using target⟩
  | case4 before first rest _ _ op assigns =>
      cases found
      exact ⟨[], first, rfl, assigns, rfl⟩
  | case5 depth before first rest _ _ _ ih =>
      obtain ⟨front, equals, rfl, assigns, target⟩ := ih found
      exact ⟨first :: front, equals, rfl, assigns, by simpa using target⟩

theorem cases_assign_of_statement {piece : Piece} {target : Expr} {op : AssignOp}
    {value : Option Expr} {written : Text}
    (read : statement piece = .assign target op value written) :
    (∃ split, splitAssign? 0 [] piece.trimmed = some split ∧ target = expr split.target ∧
      op = split.op ∧ value = some (expr split.value)) ∨
    value = none ∧ ∃ part, target = expr part ∧
      (leadingStep? piece.trimmed = some (op, part) ∨
        trailingStep? piece.trimmed = some (op, part)) := by
  unfold statement at read
  dsimp only at read
  split at read
  · cases read
  · rename_i first rest trimmed
    rw [trimmed]
    split at read
    · cases read
    · split at read
      · cases read
      · split at read
        · rename_i own part step
          cases read
          exact Or.inr ⟨rfl, part, rfl, Or.inl step⟩
        · split at read
          · rename_i stmt assigns
            subst read
            obtain ⟨split, found, same⟩ := Option.map_eq_some_iff.mp assigns
            split at same
            · cases same
            · cases same
              exact Or.inl ⟨split, found, rfl, rfl, rfl⟩
          · split at read
            · rename_i own part step
              cases read
              exact Or.inr ⟨rfl, part, rfl, Or.inr step⟩
            · split at read <;> cases read

/-- A plain assignment is cut at a token that ends the operator `=`. -/
theorem exists_equals_of_statement {piece : Piece} {target value : Expr} {written : Text}
    (read : statement piece = .assign target .assign (some value) written) :
    ∃ front equals after, piece.trimmed = front ++ equals :: after ∧
      equals.assign = some .assign ∧ target = expr front ∧ value = expr after := by
  obtain ⟨split, found, rfl, op, same⟩ | ⟨none, _⟩ := cases_assign_of_statement read
  · obtain rfl := Option.some.inj same
    obtain ⟨front, equals, trimmed, isOp, isTarget⟩ := split_of_splitAssign? found
    rw [← op] at isOp isTarget
    refine ⟨front, equals, split.value, trimmed, isOp, ?_, rfl⟩
    rw [isTarget]
    simp [show AssignOp.assign.lead = 0 by decide]
  · cases none

/-- Tokens set a field of `this` to a name that is no keyword, with no comments before the field. -/
def SetsField (field value : Text) (code : List CodeToken) : Prop :=
  ∃ this dot target equals name, code = [this, dot, target, equals, name] ∧
    this.isWord "this" = true ∧ dot.isPunct '.' = true ∧ target.token.isWord field = true ∧
    equals.isPunct '=' = true ∧ name.token.isWord value = true ∧ isKeyword value = false ∧
    dot.comments = [] ∧ target.comments = []

/-- A field of `this` is no declaration of a variable. -/
theorem localDeclaration?_of_this (isThis : this.isWord "this" = true)
    (isDot : dot.isPunct '.' = true) : localDeclaration? [this, dot, target] = none := by
  obtain ⟨isIdent, isText⟩ := Bool.and_eq_true_iff.mp isThis
  have first : this.text = "this".toList := eq_of_beq isText
  have noDash : ∀ next ∈ [dot, target].head?, next.isPunct '-' = false := by
    rintro next same
    cases same
    rw [CodeToken.isPunct_of_isPunct isDot]
    rfl
  have read : modifiers [this, dot, target] = .ok ⟨{}, [], [this, dot, target]⟩ := by
    refine modifiers_of_none ?_
    rw [modifier?_word isIdent noDash, wordModifier?, first,
      show Modifier.ofWord? "this".toList = none by decide]
    simp
  have noType : isTypeName this.text = false := by
    rw [first]
    decide
  rw [localDeclaration?, read]
  simp [noType]

theorem splitAssign?_of_equals {equals value : CodeToken}
    (isThis : this.isWord "this" = true) (isDot : dot.isPunct '.' = true)
    (isTarget : target.isIdent = true) (isEquals : equals.isPunct '=' = true)
    (assigns : equals.assign = some .assign)
    (marked : ∀ token ∈ [this, dot, target], token.Marked) :
    splitAssign? 0 [] [this, dot, target, equals, value] =
      some ⟨[this, dot, target], .assign, [value]⟩ := by
  have plain := CodeToken.isPunct_of_isIdent (CodeToken.isIdent_of_isWord isThis)
  have plainTarget := CodeToken.isPunct_of_isIdent isTarget
  have mark := CodeToken.isPunct_of_isPunct isDot
  have markEquals := CodeToken.isPunct_of_isPunct isEquals
  have unassigned : this.assign = none ∧ dot.assign = none ∧ target.assign = none :=
    ⟨(marked this (by simp)).unassigned (plain '='), (marked dot (by simp)).unassigned (mark '='),
      (marked target (by simp)).unassigned (plainTarget '=')⟩
  simp [splitAssign?, opensBracket, closesBracket, plain, plainTarget, mark, markEquals, assigns,
    unassigned, show AssignOp.assign.lead = 0 by decide]

/-- A sign `=` between two names assigns. -/
theorem assign_of_equals {tokens : List Token} {equals value : CodeToken}
    (inside : [target, equals, value] <:+: (ofTokens tokens).tokens)
    (isTarget : target.isIdent = true) (isEquals : equals.isPunct '=' = true)
    (isValue : value.isIdent = true) :
    equals.assign = some .assign := by
  obtain ⟨before, after, split⟩ := inside
  have marks := marks_ofTokens tokens
  rw [← split, List.append_assoc] at marks
  obtain ⟨_, _, assign, _⟩ := (marks_append.mp marks).2
  have noPunct : target.token.kind ≠ .punct := Token.kind_ne_punct isTarget
  have noSign : value.token.isPunct '=' = false := CodeToken.isPunct_of_isIdent isValue '='
  have isSign : equals.token.isPunct '=' = true := isEquals
  rw [assign]
  simp [Token.assignOp?, isSign, noSign, noPunct]

/-- A statement assigns a parameter to the field of a component where its tokens set the field. -/
theorem assignsComponent_statement_iff {tokens : List Token} {tail : Text}
    (chain : Token.Chain tokens tail) {piece : Piece}
    (inside : piece.tokens <:+: (ofTokens tokens).tokens) {param : Param} {component : Component}
    (named : component.name.head? ≠ some '/') :
    assignsComponent (statement piece) param component = true ↔
      SetsField component.name param.name piece.trimmed := by
  have whole := piece.trimmed_prefix.isInfix.trans inside
  have asRead : ∀ token ∈ piece.trimmed, token.AsRead :=
    fun token listed => asRead_ofTokens chain token (whole.subset listed)
  have marked : ∀ token ∈ piece.trimmed, token.Marked :=
    fun token listed => marked_ofTokens tokens token (whole.subset listed)
  constructor
  · intro assigns
    unfold assignsComponent at assigns
    split at assigns
    · rename_i target value written read
      obtain ⟨front, sign, after, trimmed, isAssign, rfl, rfl⟩ := exists_equals_of_statement read
      obtain ⟨isField, isValue⟩ := Bool.and_eq_true_iff.mp assigns
      rw [trimmed] at asRead marked
      obtain ⟨this, dot, target, rfl, isThis, isDot, isTarget, noneDot, none⟩ :=
        (isThisField_expr_iff (fun token listed => asRead token (List.mem_append_left _ listed))
          named).mp isField
      obtain ⟨name, rfl, isName, free⟩ := isName_expr_iff.mp isValue
      have isSign : sign.isPunct '=' = true := marked sign (by simp) (by rw [isAssign]; rfl)
      exact ⟨this, dot, target, sign, name, trimmed, isThis, isDot, isTarget, isSign, isName, free,
        noneDot, none⟩
    · cases assigns
  · rintro ⟨this, dot, target, sign, name, trimmed, isThis, isDot, isTarget, isSign, isName, free,
      noneDot, none⟩
    rw [trimmed] at whole asRead marked
    have isIdent := (Bool.and_eq_true_iff.mp isTarget).1
    have isAssign := assign_of_equals (List.IsInfix.trans ⟨[this, dot], [], rfl⟩ whole)
      isIdent isSign (Bool.and_eq_true_iff.mp isName).1
    have fieldMarked : ∀ token ∈ [this, dot, target], token.Marked := fun token listed =>
      marked token (List.mem_append_left [sign, name] listed)
    have read : statement piece =
        .assign (expr [this, dot, target]) .assign (some (expr [name])) piece.text := by
      refine statement_of_assignment trimmed (List.cons_ne_nil _ _) ?_ ?_ ?_ ?_
      · rintro first same
        cases same
        have isText := eq_of_beq (Bool.and_eq_true_iff.mp isThis).2
        simp [CodeToken.isWord, Token.isWord, isText]
      · simp [constructorCall?, CodeToken.isPunct_of_isPunct isDot]
      · simp [leadingStep?, CodeToken.increment?,
          CodeToken.isPunct_of_isIdent (CodeToken.isIdent_of_isWord isThis)]
      · rw [assignment?, splitAssign?_of_equals isThis isDot isIdent isSign isAssign fieldMarked,
          Option.map_some, localDeclaration?_of_this isThis isDot]
    have isField := (isThisField_expr_iff (fun token listed =>
      asRead token (List.mem_append_left [sign, name] listed)) named).mpr
      ⟨this, dot, target, rfl, isThis, isDot, isTarget, noneDot, none⟩
    have isValue := isName_expr_iff.mpr ⟨name, rfl, isName, free⟩
    rw [read]
    exact Bool.and_eq_true_iff.mpr ⟨isField, isValue⟩

/-- The first piece of a run of tokens, unless a block in it is never closed. -/
theorem exists_piece {rule : PieceRule} {first : CodeToken} {rest : List CodeToken}
    (closed : (pieces rule (first :: rest)).unclosed = none) :
    ∃ piece after, first :: rest = piece.tokens ++ after ∧
      (after = [] ∨ Indexed.stopsPiece piece.last = true) ∧
      (pieces rule (first :: rest)).pieces = piece :: (pieces rule after).pieces ∧
      (pieces rule after).unclosed = none := by
  unfold pieces at closed
  rw [piecesFrom] at closed
  rw [pieces, piecesFrom]
  cases goes : (PieceScan.start rule first).step rule first rest.head? with
  | none =>
      rw [goes] at closed
      refine ⟨⟨first, []⟩, rest, rfl, Or.inr (Indexed.stopsPiece_of_step goes), ?_, closed⟩
      simp [pieces, here_piecesFrom_none]
  | some scan =>
      rw [goes] at closed
      rcases Indexed.piecesFrom_cases rule scan rest with
        ⟨offset, never⟩ | ⟨here, after, rfl, ends, cut⟩
      · rw [never] at closed
        cases closed
      · rw [cut] at closed
        refine ⟨⟨first, here⟩, after, rfl, ends.imp_right fun ends => ?_, by simp [cut], closed⟩
        have last := ends.cons first
        unfold Indexed.Ends at last
        rwa [show first :: here = (⟨first, here⟩ : Piece).tokens from rfl, Piece.getLast?_tokens,
          Option.any_some] at last

/-- Tokens that set a field are a piece of their own, with the semicolon behind them. -/
theorem SetsField.pieces_eq {field value : Text} {code : List CodeToken}
    (sets : SetsField field value code) :
    ∃ first rest, code = first :: rest ∧ (⟨first, rest⟩ : Piece).trimmed = first :: rest ∧
      pieces statementRule code = ⟨some [], [⟨first, rest⟩], none⟩ ∧
      ∀ semicolon others, semicolon.isPunct ';' = true →
        pieces statementRule (code ++ semicolon :: others) =
          ⟨some [], ⟨first, rest ++ [semicolon]⟩ :: (pieces statementRule others).pieces,
            (pieces statementRule others).unclosed⟩ := by
  obtain ⟨this, dot, target, equals, name, rfl, isThis, isDot, isTarget, isEquals, isName,
    _⟩ := sets
  have plain := CodeToken.isPunct_of_isIdent (CodeToken.isIdent_of_isWord isThis)
  have plainTarget := CodeToken.isPunct_of_isIdent (show target.isIdent = true from
    (Bool.and_eq_true_iff.mp isTarget).1)
  have plainName := CodeToken.isPunct_of_isIdent (show name.isIdent = true from
    (Bool.and_eq_true_iff.mp isName).1)
  have mark := CodeToken.isPunct_of_isPunct isDot
  have markEquals := CodeToken.isPunct_of_isPunct isEquals
  refine ⟨this, [dot, target, equals, name], rfl, ?_, ?_, ?_⟩
  · simp [Piece.trimmed, Piece.last, Piece.tokens, plainName]
  · simp [pieces, piecesFrom, PieceScan.start, PieceScan.step, plain, plainTarget, plainName, mark,
      markEquals]
  · intro semicolon others ends
    have markSemicolon := CodeToken.isPunct_of_isPunct ends
    simp [pieces, piecesFrom, PieceScan.start, PieceScan.step, plain, plainTarget, plainName, mark,
      markEquals, markSemicolon]

theorem between_thisField {tokens : List Token} {size : Nat}
    (located : Token.Located tokens 0 0 size tokens)
    (inside : [this, dot, target] <:+: (ofTokens tokens).tokens) :
    Token.between tokens this.token.stop target.token.start =
      dot.comments ++ dot.token :: target.comments := by
  obtain ⟨before, after, split⟩ := inside
  have joined : tokens = flat before ++ this.comments ++ ([this.token] ++
      (dot.comments ++ dot.token :: target.comments ++
        ([target.token] ++ (flat after ++ (ofTokens tokens).tail)))) := by
    conv_lhs => rw [← flat_ofTokens tokens, ← split]
    simp
  have own : Token.Located tokens 0 0 size (flat before ++ this.comments ++ ([this.token] ++
      (dot.comments ++ dot.token :: target.comments ++
        ([target.token] ++ (flat after ++ (ofTokens tokens).tail))))) := by
    rw [← joined]
    exact located
  obtain ⟨_, here, behind⟩ := own.cut
  have start := (Token.placed_cons.mp here.placed).1
  have stop : this.token.stop =
      0 + Text.byteSize (Token.spell (flat before ++ this.comments)) +
        Text.byteSize (Token.spell [this.token]) := by
    rw [Token.stop, start, Token.spell_cons, Token.spell_nil, List.append_nil, Text.byteSize_append]
    omega
  rw [stop]
  exact behind.cut.1

/-- No comment stands between `this` and the name of its field if none stands before the dot and
none before the name. -/
theorem uncommented_iff {tokens : List Token} {size : Nat}
    (located : Token.Located tokens 0 0 size tokens)
    (inside : [this, dot, target] <:+: (ofTokens tokens).tokens) :
    (∀ token ∈ Token.between tokens this.token.stop target.token.start, token.isComment = false) ↔
      dot.comments = [] ∧ target.comments = [] := by
  have whole := (bound_ofTokens tokens).1
  have bound := whole.of_infix inside
  have boundDot : dot.Bound := bound dot (by simp)
  have boundTarget : target.Bound := bound target (by simp)
  have bare : ∀ comments : List Token, (∀ comment ∈ comments, comment.isComment = true) →
      ((∀ comment ∈ comments, comment.isComment = false) ↔ comments = []) := by
    intro comments all
    refine ⟨fun none => List.eq_nil_iff_forall_not_mem.mpr fun comment listed => ?_, ?_⟩
    · exact Bool.noConfusion ((all comment listed).symm.trans (none comment listed))
    · rintro rfl comment listed
      cases listed
  rw [between_thisField located inside]
  simp only [List.forall_mem_append, List.forall_mem_cons, boundDot.token, true_and,
    bare _ boundDot.comments, bare _ boundTarget.comments]

theorem setsField_map_iff {tokens : List Token} {size : Nat}
    (located : Token.Located tokens 0 0 size tokens) {code : List CodeToken}
    (inside : code <:+: (ofTokens tokens).tokens) (field value : Text) :
    Token.SetsField tokens field value (code.map CodeToken.token) ↔ SetsField field value code := by
  have uncommented : ∀ {this dot target equals name : CodeToken},
      [this, dot, target, equals, name] <:+: (ofTokens tokens).tokens →
        ((∀ token ∈ Token.between tokens this.token.stop target.token.start,
          token.isComment = false) ↔ dot.comments = [] ∧ target.comments = []) :=
    fun inside => uncommented_iff located (List.IsInfix.trans ⟨[], [_, _], rfl⟩ inside)
  constructor
  · rintro ⟨_, _, _, _, _, split, isThis, isDot, isTarget, isEquals, isName, free, none⟩
    obtain ⟨this, _, rfl, rfl, isFirst⟩ := List.map_eq_cons_iff.mp split
    obtain ⟨dot, _, rfl, rfl, isSecond⟩ := List.map_eq_cons_iff.mp isFirst
    obtain ⟨target, _, rfl, rfl, isThird⟩ := List.map_eq_cons_iff.mp isSecond
    obtain ⟨equals, _, rfl, rfl, isFourth⟩ := List.map_eq_cons_iff.mp isThird
    obtain ⟨name, _, rfl, rfl, isEnd⟩ := List.map_eq_cons_iff.mp isFourth
    cases List.map_eq_nil_iff.mp isEnd
    exact ⟨this, dot, target, equals, name, rfl, isThis, isDot, isTarget, isEquals, isName, free,
      (uncommented inside).mp none⟩
  · rintro ⟨this, dot, target, equals, name, rfl, isThis, isDot, isTarget, isEquals, isName, free,
      none⟩
    exact ⟨_, _, _, _, _, rfl, isThis, isDot, isTarget, isEquals, isName, free,
      (uncommented inside).mpr none⟩

theorem SetsField.last_isIdent {field value : Text} {piece : Piece}
    (sets : SetsField field value piece.tokens) : piece.last.isIdent = true := by
  obtain ⟨this, dot, target, equals, name, split, _, _, _, _, isName, _⟩ := sets
  have last := piece.getLast?_tokens
  rw [split] at last
  cases last
  exact (Bool.and_eq_true_iff.mp isName).1

section

variable {tokens : List Token} {tail : Text} {size : Nat} (chain : Token.Chain tokens tail)
  (located : Token.Located tokens 0 0 size tokens)

include chain located

/-- Statements that assign parameters to the fields of components are read from tokens that set the
fields. -/
theorem setsFields_of_forall₂ {pairs : List (Param × Component)}
    (named : ∀ pair ∈ pairs, pair.2.name.head? ≠ some '/') {code : List CodeToken}
    (inside : code <:+: (ofTokens tokens).tokens)
    (closed : (pieces statementRule code).unclosed = none)
    (each : List.Forall₂ (fun stmt pair => assignsComponent stmt pair.1 pair.2 = true)
      ((pieces statementRule code).pieces.map statement) pairs) :
    Token.SetsFields tokens (pairs.map fun pair => (pair.2.name, pair.1.name))
      (code.map CodeToken.token) := by
  induction pairs generalizing code with
  | nil =>
      have none := List.map_eq_nil_iff.mp (List.forall₂_nil_right_iff.mp each)
      cases code with
      | nil => exact .nil
      | cons first rest =>
          obtain ⟨piece, after, _, _, some, _⟩ := exists_piece closed
          rw [some] at none
          cases none
  | cons pair rest ih =>
      obtain ⟨stmt, others, assigns, more, split⟩ := List.forall₂_cons_right_iff.mp each
      cases code with
      | nil => cases split
      | cons first behind =>
          obtain ⟨piece, after, joined, ends, cut, closedAfter⟩ := exists_piece closed
          rw [cut, List.map_cons] at split
          cases split
          rw [joined] at inside ⊢
          have own := (List.prefix_append _ _).isInfix.trans inside
          have sets := (assignsComponent_statement_iff chain own
            (named pair List.mem_cons_self)).mp assigns
          have isField :=
            (setsField_map_iff located (piece.trimmed_prefix.isInfix.trans own) _ _).mpr sets
          by_cases semicolon : piece.last.isPunct ';' = true
          · have later := ih (fun other listed => named other (List.mem_cons_of_mem _ listed))
              ((List.suffix_append _ _).isInfix.trans inside) closedAfter more
            rw [piece.tokens_of_semicolon semicolon, List.append_assoc, List.map_append]
            exact .cons isField semicolon later
          · -- a piece that ends with a name is the last one
            rw [Piece.trimmed, if_neg semicolon] at sets isField
            have plain := CodeToken.isPunct_of_isIdent sets.last_isIdent
            have none : after = [] := ends.resolve_right (by simp [Indexed.stopsPiece, plain])
            rw [none] at more ⊢
            rw [List.forall₂_nil_left_iff.mp more, List.append_nil]
            exact .last isField

theorem forall₂_of_setsFields {pairs : List (Param × Component)}
    (named : ∀ pair ∈ pairs, pair.2.name.head? ≠ some '/') {code : List CodeToken}
    (inside : code <:+: (ofTokens tokens).tokens)
    (sets : Token.SetsFields tokens (pairs.map fun pair => (pair.2.name, pair.1.name))
      (code.map CodeToken.token)) :
    List.Forall₂ (fun stmt pair => assignsComponent stmt pair.1 pair.2 = true)
      ((pieces statementRule code).pieces.map statement) pairs := by
  induction pairs generalizing code with
  | nil =>
      cases List.map_eq_nil_iff.mp (Token.setsFields_nil_iff.mp sets)
      exact .nil
  | cons pair rest ih =>
      have here := named pair List.mem_cons_self
      rcases Token.setsFields_cons_iff.mp sets with
        ⟨none, own⟩ | ⟨run, semicolon, others, split, own, ends, more⟩
      · have isField := (setsField_map_iff located inside _ _).mp own
        obtain ⟨first, behind, rfl, trimmed, cut, _⟩ := isField.pieces_eq
        have assigns := (assignsComponent_statement_iff chain
          (show (⟨first, behind⟩ : Piece).tokens <:+: _ from inside) here).mpr (by rwa [trimmed])
        rw [cut, List.map_eq_nil_iff.mp none]
        exact .cons assigns .nil
      · obtain ⟨front, behind, rfl, rfl, isBehind⟩ := List.map_eq_append_iff.mp split
        obtain ⟨closing, after, rfl, rfl, rfl⟩ := List.map_eq_cons_iff.mp isBehind
        have isField :=
          (setsField_map_iff located ((List.prefix_append _ _).isInfix.trans inside) _ _).mp own
        obtain ⟨first, behind, rfl, _, _, cut⟩ := isField.pieces_eq
        rw [List.append_cons, List.cons_append] at inside
        have assigns := (assignsComponent_statement_iff chain
          (show (⟨first, behind ++ [closing]⟩ : Piece).tokens <:+: _ from
            (List.prefix_append _ _).isInfix.trans inside) here).mpr
          (by rwa [Piece.trimmed_of_semicolon ends])
        rw [cut closing after ends]
        exact .cons assigns (ih (fun other listed => named other (List.mem_cons_of_mem _ listed))
          ((List.suffix_append _ _).isInfix.trans inside) more)

end

end Code

end JavaRecords
