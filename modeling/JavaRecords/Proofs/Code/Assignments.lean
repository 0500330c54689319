import JavaRecords.Proofs.Code.Assigned
import JavaRecords.Proofs.Code.Scanned

set_option autoImplicit false

namespace JavaRecords

/-- An expression is a name, or a field of `this` without a comment in it. -/
inductive Expr.IsPlain (target : Expr) : Prop
  | name (shape : target.shape = .name)
  | thisField (shape : target.shape = .thisField)
      (uncommented : ∃ tokens, lex target.text = .ok tokens ∧
        ∀ token ∈ tokens, token.isComment = false)

theorem Expr.isPlain_iff (target : Expr) : target.IsPlain ↔ target.shape = .name ∨
    target.shape = .thisField ∧
      (lex target.text).toOption.any (List.all · fun token => !token.isComment) = true := by
  constructor
  · rintro (shape | ⟨shape, tokens, lexed, uncommented⟩)
    · exact Or.inl shape
    · refine Or.inr ⟨shape, ?_⟩
      rw [lexed]
      simpa [Except.toOption] using uncommented
  · rintro (shape | ⟨shape, uncommented⟩)
    · exact .name shape
    · cases lexed : lex target.text with
      | error failure =>
          rw [lexed] at uncommented
          cases uncommented
      | ok tokens =>
          rw [lexed] at uncommented
          exact .thisField shape ⟨tokens, lexed, by simpa [Except.toOption] using uncommented⟩

instance (target : Expr) : Decidable target.IsPlain :=
  decidable_of_iff' _ target.isPlain_iff

theorem Expr.IsPlain.told {target : Expr} (plain : target.IsPlain) : target.shape ≠ .other := by
  intro other
  cases plain with
  | name shape => cases other.symm.trans shape
  | thisField shape _ => cases other.symm.trans shape

namespace Token

variable {tokens before after : List Token} {op : AssignOp}

/-- Two words that are spelled at one place agree as far as both go. -/
theorem prefix_or_prefix_of_spells {word other : Text} (spelled : spells word tokens = true)
    (spelledOther : spells other tokens = true) : word <+: other ∨ other <+: word := by
  induction word generalizing other tokens with
  | nil => exact Or.inl List.nil_prefix
  | cons c word ih =>
      cases other with
      | nil => exact Or.inr List.nil_prefix
      | cons d other =>
          cases tokens with
          | nil => cases spelled
          | cons token rest =>
              simp only [spells, Bool.and_eq_true, isPunct_iff] at spelled spelledOther
              obtain ⟨⟨⟨_, text⟩, _⟩, later⟩ := spelled
              obtain ⟨⟨⟨_, textOther⟩, _⟩, laterOther⟩ := spelledOther
              obtain ⟨rfl, _⟩ := List.cons.inj (text.symm.trans textOther)
              exact (ih later laterOther).imp (List.prefix_cons_inj c).mpr
                (List.prefix_cons_inj c).mpr

/-- No operator that assigns is spelled where a word is that none of them agrees with. -/
theorem not_begins_of_spells {word : Text} (spelled : spells word tokens = true)
    (apart : ∀ op ∈ AssignOp.assignments,
      ¬ op.spelling.toList <+: word ∧ ¬ word <+: op.spelling.toList) (other : AssignOp) :
    ¬ Begins other tokens := fun begins =>
  (prefix_or_prefix_of_spells begins.2.1 spelled).elim (apart other begins.1).1
    (apart other begins.1).2

/-- An increment or a decrement is no operator that assigns. -/
theorem StepsBy.plain (steps : StepsBy op tokens) (other : AssignOp) : ¬ Begins other tokens := by
  rcases steps with ⟨_, spelled⟩ | ⟨_, spelled⟩
  · exact not_begins_of_spells spelled (by decide) other
  · exact not_begins_of_spells spelled (by decide) other

theorem StepsBy.undotted {first second : Token} (steps : StepsBy op [first, second]) :
    second.isPunct '.' = false := by
  cases dot : second.isPunct '.' with
  | false => rfl
  | true =>
      have isText := (isPunct_iff.mp dot).2
      rcases steps with ⟨_, spelled⟩ | ⟨_, spelled⟩ <;> simp [spells, isPunct, isText] at spelled

def Ended (tokens : List Token) : Prop :=
  ∃ next rest, tokens = next :: rest ∧ (next.isPunct ';' = true ∨ next.isPunct '}' = true)

/-- No operator stands behind the end of a statement. -/
theorem Ended.plain (ended : Ended tokens) :
    (∀ other, ¬ Begins other tokens) ∧ ∀ other, ¬ StepsBy other tokens := by
  obtain ⟨next, rest, rfl, mark⟩ := ended
  have spelled : spells ";".toList (next :: rest) = true ∨
    spells "\x7d".toList (next :: rest) = true := by
    simpa [spells] using mark
  rcases spelled with spelled | spelled <;>
    refine ⟨not_begins_of_spells spelled (by decide), ?_⟩ <;>
    rintro other (⟨_, steps⟩ | ⟨_, steps⟩) <;>
    exact absurd (prefix_or_prefix_of_spells spelled steps) (by decide)

theorem map_kind_restart (offset : Nat) (tokens : List Token) :
    (restart offset tokens).map kind = tokens.map kind := by
  induction tokens generalizing offset with
  | nil => rfl
  | cons token rest ih => rw [restart, List.map_cons, List.map_cons, ih]

end Token

namespace Code

variable {op : AssignOp} {part : List CodeToken} {name : Text} {qualified : Bool}

inductive Names : List CodeToken → Text → Bool → Prop
  | name {token : CodeToken} (isIdent : token.isIdent = true)
      (free : isKeyword token.text = false) :
      Names [token] token.text false
  | field {this dot field : CodeToken} (isThis : this.isWord "this" = true)
      (isDot : dot.isPunct '.' = true) (isIdent : field.isIdent = true) :
      Names [this, dot, field] field.text true

theorem Names.exists_last (names : Names part name qualified) :
    ∃ front last, part = front ++ [last] ∧ last.isIdent = true := by
  cases names with
  | @name token isIdent _ => exact ⟨[], token, rfl, isIdent⟩
  | @field this dot field _ _ isIdent => exact ⟨[this, dot], field, rfl, isIdent⟩

theorem Names.targets (names : Names part name qualified) {before after : List Token}
    (undotted : ∀ last ∈ before.getLast?, last.isPunct '.' = false) :
    Token.Targets before (part.map CodeToken.token ++ after) name qualified after := by
  cases names with
  | name isIdent free => exact .name isIdent free undotted
  | field isThis isDot isIdent => exact .field isThis isDot isIdent

theorem comments_eq_nil {tokens read : List Token} {tail : Text} (chain : Token.Chain tokens tail)
    {first : CodeToken} {rest : List CodeToken}
    (inside : first :: rest <:+: (ofTokens tokens).tokens)
    (lexed : lex (text (first :: rest)) = .ok read)
    (none : ∀ token ∈ read, token.isComment = false) :
    ∀ code ∈ rest, code.comments = [] := by
  have bound := Bound.of_infix (bound_ofTokens tokens).1 inside
  obtain rfl := Except.ok.inj ((lex_text chain inside).symm.trans lexed)
  intro code listed
  refine List.eq_nil_iff_forall_not_mem.mpr fun comment among => ?_
  have isComment := (bound code (List.mem_cons_of_mem _ listed)).comments comment among
  have inRun : comment ∈ run (first :: rest) :=
    List.mem_cons_of_mem _ (List.mem_flatMap.mpr ⟨code, listed, List.mem_append_left _ among⟩)
  have kind : comment.kind ∈ (Token.restart 0 (run (first :: rest))).map Token.kind := by
    rw [Token.map_kind_restart]
    exact List.mem_map_of_mem inRun
  obtain ⟨token, isRead, same⟩ := List.mem_map.mp kind
  have plain := none token isRead
  rw [Token.isComment, same, ← Token.isComment, isComment] at plain
  cases plain

/-- A plain expression is a target, under the name that it is found by. -/
theorem names_of_isPlain {tokens : List Token} {tail : Text} (chain : Token.Chain tokens tail)
    (inside : part <:+: (ofTokens tokens).tokens) (plain : (expr part).IsPlain) :
    ∃ name, (expr part).ident? = some name ∧ Names part name ((expr part).shape == .thisField) := by
  rcases cases_shape_expr part with
    shape | ⟨token, rfl, shape, isIdent, free⟩
      | ⟨this, dot, field, rfl, shape, isThis, isDot, isIdent⟩
  · exact absurd shape plain.told
  · rw [shape]
    refine ⟨token.text, ?_, .name isIdent free⟩
    rw [Expr.ident?, shape]
    simp [expr]
  · rw [shape]
    refine ⟨field.text, ?_, .field isThis isDot isIdent⟩
    cases plain with
    | name isName => cases shape.symm.trans isName
    | thisField _ uncommented =>
        obtain ⟨read, lexed, none⟩ := uncommented
        have bare := comments_eq_nil chain inside lexed none
        have asRead := fun token listed => asRead_ofTokens chain token (inside.subset listed)
        obtain ⟨c, word, isText, _, start⟩ := (asRead field (by simp)).name isIdent
        have named : field.text.head? ≠ some '/' := by
          rw [isText]
          exact fun slash => (Token.plain_of_identStart start).1 (Option.some.inj slash)
        rw [expr_thisField isThis isDot isIdent]
        exact (ident?_thisField_iff isThis isDot isIdent (asRead dot (by simp))
          (asRead field (by simp)) named).mpr ⟨bare dot (by simp), bare field (by simp), rfl⟩

/-- Code is a target and the operator that assigns it: in front of it, at the end, or with a value
behind it. -/
inductive Assigns (op : AssignOp) (target : List CodeToken) : List CodeToken → Prop
  | ahead {first second : CodeToken} (steps : CodeToken.increment? first second = some op) :
      Assigns op target (first :: second :: target)
  | value {taken value : List CodeToken} {equals : CodeToken} (assigns : equals.assign = some op)
      (size : taken.length = op.lead) : Assigns op target (target ++ (taken ++ equals :: value))
  | behind {previous last : CodeToken} (steps : CodeToken.increment? previous last = some op) :
      Assigns op target (target ++ [previous, last])

theorem Assigns.isInfix {target code : List CodeToken} (assigns : Assigns op target code) :
    target <:+: code := by
  cases assigns with
  | ahead _ => exact (List.suffix_append [_, _] target).isInfix
  | value _ _ => exact (List.prefix_append target _).isInfix
  | behind _ => exact (List.prefix_append target _).isInfix

theorem append_of_leadingStep? {code : List CodeToken}
    (found : leadingStep? code = some (op, part)) :
    ∃ first second, code = first :: second :: part ∧
      CodeToken.increment? first second = some op := by
  unfold leadingStep? at found
  split at found
  · obtain ⟨_, steps, same⟩ := Option.map_eq_some_iff.mp found
    cases same
    exact ⟨_, _, rfl, steps⟩
  · cases found

theorem append_of_trailingStep? {code : List CodeToken}
    (found : trailingStep? code = some (op, part)) :
    ∃ previous last, code = part ++ [previous, last] ∧
      CodeToken.increment? previous last = some op := by
  unfold trailingStep? at found
  split at found
  · rename_i last previous target rest reversed
    obtain ⟨_, steps, same⟩ := Option.map_eq_some_iff.mp found
    cases same
    refine ⟨previous, last, ?_, steps⟩
    rw [← List.reverse_reverse code, reversed]
    simp
  · cases found

/-- A run of tokens is cut into a target, the tokens of an operator, and the value, unless it has no
target. -/
theorem append_of_splitAssign? {code : List CodeToken} {split : AssignSplit}
    (found : splitAssign? 0 [] code = some split) (nonempty : split.target ≠ []) :
    ∃ taken equals, code = split.target ++ (taken ++ equals :: split.value) ∧
      equals.assign = some split.op ∧ taken.length = split.op.lead := by
  obtain ⟨front, equals, joined, assigns, isTarget⟩ := split_of_splitAssign? found
  rw [List.append_nil, List.drop_reverse, List.reverse_reverse] at isTarget
  have long : split.op.lead ≤ front.length := by
    refine Nat.le_of_not_lt fun short => nonempty ?_
    rw [isTarget, Nat.sub_eq_zero_of_le (Nat.le_of_lt short), List.take_zero]
  refine ⟨front.drop (front.length - split.op.lead), equals, ?_, assigns, ?_⟩
  · rw [isTarget, ← List.append_assoc, List.take_append_drop, joined]
  · rw [List.length_drop]
    omega

theorem exists_assigns_of_statement {piece : Piece} {target : Expr} {value : Option Expr}
    {written : Text} (read : statement piece = .assign target op value written)
    (told : target.shape ≠ .other) :
    ∃ part, target = expr part ∧ Assigns op part piece.trimmed := by
  obtain ⟨split, found, rfl, rfl, _⟩ | ⟨_, part, rfl, step | step⟩ := cases_assign_of_statement read
  · have nonempty : split.target ≠ [] := fun none => told (by rw [none]; rfl)
    obtain ⟨taken, equals, joined, assigns, size⟩ := append_of_splitAssign? found nonempty
    exact ⟨split.target, rfl, by rw [joined]; exact .value assigns size⟩
  · obtain ⟨_, _, joined, steps⟩ := append_of_leadingStep? step
    exact ⟨part, rfl, by rw [joined]; exact .ahead steps⟩
  · obtain ⟨_, _, joined, steps⟩ := append_of_trailingStep? step
    exact ⟨part, rfl, by rw [joined]; exact .behind steps⟩

/-- The operator of an assignment is spelled behind its target. -/
theorem begins_of_assign {earlier later : List Token} {front taken value : List CodeToken}
    {last equals : CodeToken}
    (marks : Marks earlier later (front ++ last :: (taken ++ equals :: value)))
    (isIdent : last.isIdent = true) (assigns : equals.assign = some op)
    (size : taken.length = op.lead) (nonempty : value ≠ []) :
    Token.Begins op ((taken ++ equals :: value).map CodeToken.token) := by
  have apart : ∀ previous ∈ (last.token :: ((front.map CodeToken.token).reverse ++ earlier)).head?,
      previous.kind ≠ .punct := by
    rintro previous ⟨⟩
    exact Token.kind_ne_punct isIdent
  have lengths : (taken.map CodeToken.token).length = op.lead := by rw [List.length_map, size]
  obtain ⟨_, here, _⟩ := marks_append.mp (marks_append.mp marks).2.2.2
  rw [assigns] at here
  have whole := (Token.assignOp?_eq_some_iff apart _ _ _ lengths).mp here.symm
  obtain ⟨spelled, ends⟩ := (Token.begins_append_iff _ _ _ whole.1 lengths).mp whole
  rw [List.map_append, List.map_cons]
  refine (Token.begins_append_iff _ _ _ whole.1 lengths).mpr ⟨spelled, ?_⟩
  obtain ⟨next, others, rfl⟩ := List.exists_cons_of_ne_nil nonempty
  exact ends

/-- What follows the tokens of a statement, up to the brace behind its body, ends the statement,
unless the statement ends with a brace of its own. -/
theorem exists_rest_of_piece {piece : Piece} {after : List CodeToken} (nonempty : after ≠ [])
    (ends : Token.Ended (after.map CodeToken.token) ∨ Indexed.stopsPiece piece.last = true) :
    ∃ rest, piece.tokens ++ after = piece.trimmed ++ rest ∧ rest ≠ [] ∧
      (Token.Ended (rest.map CodeToken.token) ∨
        ∃ brace, piece.trimmed.getLast? = some brace ∧ brace.isPunct '}' = true) := by
  cases semicolon : piece.last.isPunct ';' with
  | true =>
      refine ⟨piece.last :: after, ?_, List.cons_ne_nil _ _, Or.inl ⟨_, _, rfl, Or.inl semicolon⟩⟩
      rw [piece.tokens_of_semicolon semicolon, List.append_assoc, List.singleton_append]
  | false =>
      have whole : piece.trimmed = piece.tokens := by
        rw [Piece.trimmed, if_neg (by simp [semicolon])]
      rw [whole]
      refine ⟨after, rfl, nonempty, ends.imp_right fun stops => ?_⟩
      rw [Indexed.stopsPiece, semicolon, Bool.false_or] at stops
      exact ⟨piece.last, piece.getLast?_tokens, stops⟩

theorem exists_writesAt_of_assigns {earlier later : List Token} {before code rest : List CodeToken}
    (marks : Marks earlier later (before ++ (code ++ rest)))
    (undotted : ∀ last ∈ before.getLast?, last.isPunct '.' = false) (nonempty : rest ≠ [])
    (ended : Token.Ended (rest.map CodeToken.token) ∨
      ∃ brace, code.getLast? = some brace ∧ brace.isPunct '}' = true)
    (names : Names part name qualified) (assigns : Assigns op part code) :
    ∃ place, Token.WritesAt ((before ++ (code ++ rest)).map CodeToken.token) place
      name qualified op := by
  obtain ⟨front, last, isPart, isIdent⟩ := names.exists_last
  have apart : ∀ last ∈ (before.map CodeToken.token).getLast?, last.isPunct '.' = false := by
    intro last isLast
    rw [List.getLast?_map] at isLast
    obtain ⟨previous, isPrevious, rfl⟩ := Option.map_eq_some_iff.mp isLast
    exact undotted previous isPrevious
  cases assigns with
  | @ahead first second steps =>
      -- the target ends the statement, so no operator stands behind it
      have closed : Token.Ended (rest.map CodeToken.token) := by
        refine ended.resolve_right ?_
        rintro ⟨brace, isBrace, mark⟩
        rw [isPart, ← List.cons_append, ← List.cons_append, List.getLast?_concat] at isBrace
        cases isBrace
        rw [CodeToken.isPunct_of_isIdent isIdent] at mark
        cases mark
      have step := (increment?_eq_some_iff []).mp steps
      have ahead : (before ++ [first, second]).map CodeToken.token =
          before.map CodeToken.token ++ [first.token, second.token] := List.map_append
      have split : (before ++ (first :: second :: part ++ rest)).map CodeToken.token =
          (before ++ [first, second]).map CodeToken.token ++
            (part.map CodeToken.token ++ rest.map CodeToken.token) := by
        simp
      rw [split]
      refine ⟨_, Token.writesAt_append (names.targets ?_)
        (.stepsAhead closed.plain.1 closed.plain.2 ahead step)⟩
      rw [ahead, List.getLast?_append_cons]
      rintro last ⟨⟩
      exact step.undotted
  | @value taken value equals assigns size =>
      have split : before ++ (part ++ (taken ++ equals :: value) ++ rest) =
          (before ++ front) ++ last :: (taken ++ equals :: (value ++ rest)) := by
        simp [isPart]
      rw [split] at marks
      have begins := begins_of_assign marks isIdent assigns size (by simp [nonempty])
      have joined : (before ++ (part ++ (taken ++ equals :: value) ++ rest)).map CodeToken.token =
          before.map CodeToken.token ++ (part.map CodeToken.token ++
            (taken ++ equals :: (value ++ rest)).map CodeToken.token) := by
        simp
      rw [joined]
      exact ⟨_, Token.writesAt_append (names.targets apart) (.assigns begins)⟩
  | @behind previous last steps =>
      have step := (increment?_eq_some_iff (rest.map CodeToken.token)).mp steps
      have joined : (before ++ (part ++ [previous, last] ++ rest)).map CodeToken.token =
          before.map CodeToken.token ++ (part.map CodeToken.token ++
            previous.token :: last.token :: rest.map CodeToken.token) := by
        simp
      rw [joined]
      exact ⟨_, Token.writesAt_append (names.targets apart) (.steps step.plain step)⟩

/-- A statement that assigns a name or a field of `this` writes it, by the operator of
the statement. -/
theorem exists_writesAt_of_statement {tokens : List Token} {tail : Text}
    (chain : Token.Chain tokens tail) {before after : List CodeToken} {piece : Piece}
    (inside : before ++ (piece.tokens ++ after) <:+: (ofTokens tokens).tokens)
    (undotted : ∀ last ∈ before.getLast?, last.isPunct '.' = false) (nonempty : after ≠ [])
    (ends : Token.Ended (after.map CodeToken.token) ∨ Indexed.stopsPiece piece.last = true)
    {target : Expr} {value : Option Expr} {written : Text}
    (read : statement piece = .assign target op value written) (plain : target.IsPlain) :
    ∃ place name, target.ident? = some name ∧
      Token.WritesAt ((before ++ (piece.tokens ++ after)).map CodeToken.token) place name
        (target.shape == .thisField) op := by
  obtain ⟨front, back, whole⟩ := inside
  have marks := marks_ofTokens tokens
  rw [← whole, List.append_assoc] at marks
  have here := (marks_append.mp (marks_append.mp marks).2).1
  obtain ⟨part, rfl, assigns⟩ := exists_assigns_of_statement read plain.told
  obtain ⟨rest, same, some, ended⟩ := exists_rest_of_piece nonempty ends
  rw [same] at here ⊢
  have within : part <:+: (ofTokens tokens).tokens :=
    assigns.isInfix.trans (piece.trimmed_prefix.isInfix.trans
      ⟨front ++ before, after ++ back, by rw [← whole]; simp⟩)
  obtain ⟨name, named, names⟩ := names_of_isPlain chain within plain
  obtain ⟨place, writes⟩ := exists_writesAt_of_assigns here undotted some ended names assigns
  exact ⟨place, name, named, writes⟩

end Code

end JavaRecords
