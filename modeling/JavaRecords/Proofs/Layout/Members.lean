import JavaRecords.Proofs.Layout.DataClass
import JavaRecords.Proofs.Parse.Member
import JavaRecords.Proofs.Parse.Moved
import JavaRecords.Proofs.Parse.Proper
import JavaRecords.Proofs.Conversion.Reread

set_option autoImplicit false

namespace JavaRecords

namespace Code

theorem exists_of_mem_laid {offset : Nat} {tokens : List Token} {code : CodeToken}
    (listed : code ∈ laid offset tokens) :
    code.Marked ∧ ∃ token ∈ tokens, ∀ c, code.isPunct c = token.isPunct c := by
  obtain ⟨token, inside, rfl⟩ := List.mem_map.mp listed
  obtain ⟨own, member, start, rfl⟩ := Token.mem_restart inside
  refine ⟨fun assigns => ?_, own, member, fun _ => rfl⟩
  by_contra noEquals
  have noAssign : (CodeToken.ofToken { own with start }).assign = none := if_neg noEquals
  rw [noAssign] at assigns
  cases assigns

theorem marked_laid {offset : Nat} {tokens : List Token} :
    ∀ code ∈ laid offset tokens, code.Marked :=
  fun _ listed => (exists_of_mem_laid listed).1

theorem isPunct_laid {offset : Nat} {tokens : List Token} {c : Char}
    (none : ∀ token ∈ tokens, token.isPunct c = false) :
    ∀ code ∈ laid offset tokens, code.isPunct c = false := by
  intro code listed
  obtain ⟨_, token, inside, same⟩ := exists_of_mem_laid listed
  rw [same]
  exact none token inside

theorem nested_of_no_bracket {code : List CodeToken}
    (none : ∀ token ∈ code, ∀ c ∈ ['(', ')', '\x7b', '\x7d'], token.isPunct c = false) :
    Token.Nested (code.map CodeToken.token) := by
  induction code with
  | nil => rfl
  | cons first rest ih =>
      have here := none first List.mem_cons_self
      have turns : Token.turn [] first.token = some [] := by
        have isPunct : ∀ c ∈ ['(', ')', '\x7b', '\x7d'], first.token.isPunct c = false := here
        simp [Token.turn, isPunct]
      rw [List.map_cons, Token.Nested, Token.nest_cons, turns]
      exact ih fun token listed => none token (List.mem_cons_of_mem _ listed)

/-- Tokens without parentheses and braces. -/
def Unbracketed (tokens : List Token) : Prop :=
  ∀ token ∈ tokens, ∀ c ∈ ['(', ')', '\x7b', '\x7d'], token.isPunct c = false

theorem Unbracketed.nested {tokens : List Token} (flat : Unbracketed tokens) (offset : Nat) :
    Token.Nested ((laid offset tokens).map CodeToken.token) :=
  nested_of_no_bracket fun token listed c bracket =>
    isPunct_laid (fun own inside => flat own inside c bracket) token listed

theorem unbracketed_nil : Unbracketed [] := fun _ listed => absurd listed List.not_mem_nil

theorem Unbracketed.append {left right : List Token} (first : Unbracketed left)
    (second : Unbracketed right) : Unbracketed (left ++ right) :=
  fun token listed => (List.mem_append.mp listed).elim (first token) (second token)

theorem unbracketed_flatMap {α : Type} {items : List α} {tokens : α → List Token}
    (each : ∀ item ∈ items, Unbracketed (tokens item)) : Unbracketed (items.flatMap tokens) := by
  intro token listed
  obtain ⟨item, among, inside⟩ := List.mem_flatMap.mp listed
  exact each item among token inside

theorem unbracketed_type (space : Text) (ty : JavaType) : Unbracketed (ty.tokens space) := by
  intro token listed c bracket
  have others : ∀ c ∈ ['(', ')', '\x7b', '\x7d'], c ∉ ['<', '>', '[', ']', ','] := by simp
  exact (ty.plain_tokens token listed).2 c (others c bracket)

theorem nested_between {opening closing : Token} {inside : List Token} {c : Char}
    (opens : Token.turn [] opening = some [c]) (nested : Token.Nested inside)
    (closes : Token.turn [c] closing = some []) :
    Token.Nested (opening :: (inside ++ [closing])) := by
  rw [Token.Nested, Token.nest_cons, opens, Option.bind_some, Token.nest_append, nested.nest,
    Option.bind_some, Token.nest_cons, closes]
  rfl

theorem close?_of_lacks {inside rest : List CodeToken} {closing : CodeToken}
    (none : ∀ token ∈ inside, token.isPunct '(' = false ∧ token.isPunct ')' = false)
    (isClosing : closing.isPunct ')' = true) :
    close? '(' ')' 0 (inside ++ closing :: rest) = some ⟨inside, closing, rest⟩ := by
  induction inside with
  | nil =>
      have other : closing.isPunct '(' = false := by
        rw [CodeToken.isPunct_of_isPunct isClosing]
        rfl
      simp [close?, isClosing, other]
  | cons first others ih =>
      obtain ⟨noOpening, noClosing⟩ := none first List.mem_cons_self
      rw [List.cons_append, close?, if_neg (by simp [noOpening]), if_neg (by simp [noClosing]),
        ih fun token listed => none token (List.mem_cons_of_mem _ listed)]
      rfl

end Code

/-- A token that the scan of a declaration passes by. -/
def CodeToken.Scanned (code : CodeToken) : Prop := code.Marked ∧ code.token.isPlain = true

namespace Code

theorem scanned_ofWord {space text : Text} {start : Nat} :
    (CodeToken.ofWord space text start).Scanned :=
  ⟨fun assigns => (by cases assigns), Token.isPlain_of_isIdent rfl⟩

theorem across_of_scanned {code : List CodeToken} (scanned : ∀ token ∈ code, token.Scanned) :
    PieceScan.fresh.across code = some .fresh :=
  PieceScan.across_fresh_of_plain (fun token listed => (scanned token listed).1)
    fun token listed => (scanned token listed).2

theorem ends_of_semicolon {front : List CodeToken} (space : Text) (start : Nat)
    (scanned : ∀ token ∈ front, token.Scanned) :
    Ends .fresh (front ++ [.ofMark space ';' start]) := by
  refine Ends.across (across_of_scanned scanned) (.last ?_)
  simp [PieceScan.step, PieceScan.fresh]

theorem ends_of_body {front inner block : List CodeToken} {paren closing opening final : CodeToken}
    (scanned : ∀ token ∈ front, token.Scanned) (isParen : paren.isPunct '(' = true)
    (nestedInner : Token.Nested (inner.map CodeToken.token))
    (isClosing : closing.isPunct ')' = true) (isOpening : opening.isPunct '\x7b' = true)
    (nestedBlock : Token.Nested (block.map CodeToken.token))
    (isFinal : final.isPunct '\x7d' = true) :
    Ends .fresh (front ++ paren :: (inner ++ closing :: opening :: (block ++ [final]))) := by
  have closes : (PieceScan.within 1).step declarationRule closing none = some .fresh := by
    have same := CodeToken.isPunct_of_isPunct isClosing
    simp [PieceScan.step, PieceScan.within, PieceScan.fresh, same]
  refine Ends.across (across_of_scanned scanned) (.step (PieceScan.step_fresh_of_paren isParen) ?_)
  refine Ends.across (PieceScan.across_within nestedInner) (.step closes
    (.step (PieceScan.step_fresh_of_brace isOpening) ?_))
  exact ends_of_block _ nestedBlock isFinal

/-- A word that no dash follows is a modifier only by itself. -/
theorem modifier?_word {word : CodeToken} {rest : List CodeToken} (isIdent : word.isIdent = true)
    (noDash : ∀ next ∈ rest.head?, next.isPunct '-' = false) :
    modifier? (word :: rest) = .ok (wordModifier? word rest) := by
  have noSign := CodeToken.isPunct_of_isIdent isIdent '@'
  rcases rest with _ | ⟨dash, _ | ⟨second, after⟩⟩
  · simp [modifier?, noSign]
  · simp [modifier?, noSign]
  · have none : dash.isPunct '-' = false := noDash dash rfl
    simp [modifier?, noSign, none]

theorem modifiers_word (word : CodeToken) {rest : List CodeToken} {modifier : Modifier}
    {run : ModifierRun} (isIdent : word.isIdent = true)
    (spelled : Modifier.ofWord? word.text = some modifier)
    (noDash : ∀ next ∈ rest.head?, next.isPunct '-' = false) (read : modifiers rest = .ok run) :
    modifiers (word :: rest) = .ok ⟨⟨modifier :: run.modifiers.keywords, run.modifiers.annotations⟩,
      word :: run.taken, run.rest⟩ := by
  have found : modifier? (word :: rest) = .ok (some ⟨⟨[modifier], []⟩, [word], rest⟩) := by
    rw [modifier?_word isIdent noDash]
    simp [wordModifier?, isIdent, spelled]
  rw [modifiers_of_some found, read]
  rfl

theorem modifiers_other {space text : Text} {start : Nat} {rest : List CodeToken}
    (other : Modifier.ofWord? text = none)
    (noDash : ∀ next ∈ rest.head?, next.isPunct '-' = false) :
    modifiers (.ofWord space text start :: rest) =
      .ok ⟨{}, [], .ofWord space text start :: rest⟩ := by
  refine modifiers_of_none ?_
  rw [modifier?_word rfl noDash]
  simp [wordModifier?, other]

structure TypeCode (ty : JavaType) (code : List CodeToken) : Prop where
  text : text code = ty.text
  head : ∃ space word start rest, code = .ofWord space word start :: rest ∧
    JavaType.isTypeWord word = true
  marked : ∀ token ∈ code, token.Marked
  plain : ∀ token ∈ code, ∀ c ∉ ['<', '>', '[', ']', ','], token.isPunct c = false
  passes : ∀ {α : Type} {scan : Nat → List CodeToken → α} {push : CodeToken → α → α},
    GoesOver scan push → ∀ depth rest,
      scan depth (code ++ rest) = code.foldr push (scan depth rest)

theorem typeCode_laid {ty : JavaType} (proper : ty.isProper = true) (offset : Nat) (space : Text) :
    TypeCode ty (laid offset (ty.tokens space)) where
  text := ty.text_laid offset space
  head := by
    obtain ⟨word, rest, tokens, isWord⟩ := ty.exists_tokens space
    exact ⟨_, word, _, _, by rw [tokens, laid_word], isWord proper⟩
  marked := marked_laid
  plain token listed c other := isPunct_laid
    (fun own inside => (ty.plain_tokens own inside).2 c other) token listed
  passes goes depth rest := goes.type depth offset space rest ty

theorem ofWord?_of_isTypeWord {word : Text} (isWord : JavaType.isTypeWord word = true) :
    Modifier.ofWord? word = none := by
  have none : ∀ modifier ∈ Modifier.all,
      JavaType.isTypeWord modifier.spelling.toList = false := by decide +kernel
  refine List.find?_eq_none.mpr fun modifier listed spelled => ?_
  have absent := none modifier listed
  rw [eq_of_beq spelled, isWord] at absent
  cases absent

theorem typeKeyword?_of_isTypeWord {space word : Text} {start : Nat} {rest : List CodeToken}
    (isWord : JavaType.isTypeWord word = true) :
    typeKeyword? (.ofWord space word start :: rest) = none := by
  have other : ∀ keyword ∈ ["class", "interface", "enum", "record"],
      (word == keyword.toList) = false := by
    have none : ∀ keyword ∈ ["class", "interface", "enum", "record"],
        JavaType.isTypeWord keyword.toList = false := by decide +kernel
    intro keyword listed
    refine beq_eq_false_iff_ne.mpr fun same => ?_
    have absent := none keyword listed
    rw [← same, isWord] at absent
    cases absent
  simp only [typeKeyword?, CodeToken.isPunct_ofWord, CodeToken.isWord_ofWord, Bool.false_and,
    other "class" (by simp), other "interface" (by simp), other "enum" (by simp),
    other "record" (by simp), Bool.false_eq_true, if_false]

namespace TypeCode

variable {ty : JavaType} {code : List CodeToken} (typed : TypeCode ty code)

include typed

theorem isPlain : ∀ token ∈ code, token.token.isPlain = true := by
  intro token listed
  refine List.all_eq_true.mpr fun c among => ?_
  have others : ∀ c ∈ ['(', ')', '\x7b', '\x7d', ';', '='], c ∉ ['<', '>', '[', ']', ','] := by
    simp
  have none : token.token.isPunct c = false := typed.plain token listed c (others c among)
  rw [none]
  rfl

theorem scanned : ∀ token ∈ code, token.Scanned :=
  fun token listed => ⟨typed.marked token listed, typed.isPlain token listed⟩

theorem lacks {c : Char} (rest : List CodeToken) :
    ∀ next ∈ (code ++ rest).head?, next.isPunct c = false := by
  obtain ⟨space, word, start, more, rfl, _⟩ := typed.head
  intro next isNext
  cases isNext
  rfl

theorem typeKeyword?_eq (rest : List CodeToken) : typeKeyword? (code ++ rest) = none := by
  obtain ⟨space, word, start, more, rfl, isWord⟩ := typed.head
  exact typeKeyword?_of_isTypeWord isWord

/-- After a type, the token that follows it decides what does not stand in it. -/
theorem lacks_tail {c : Char} (other : c ∉ ['<', '>', '[', ']', ',']) {rest : List CodeToken}
    (lacks : ∀ next ∈ rest.head?, next.isPunct c = false) :
    ∀ next ∈ (code ++ rest).tail.head?, next.isPunct c = false := by
  obtain ⟨space, word, start, more, rfl, _⟩ := typed.head
  intro next isNext
  cases more with
  | nil => exact lacks next isNext
  | cons second others =>
      cases isNext
      exact typed.plain _ (by simp) c other

theorem modifiers_eq (rest : List CodeToken)
    (noDash : ∀ next ∈ rest.head?, next.isPunct '-' = false) :
    modifiers (code ++ rest) = .ok ⟨{}, [], code ++ rest⟩ := by
  have later := typed.lacks_tail (c := '-') (by decide) noDash
  obtain ⟨space, word, start, more, rfl, isWord⟩ := typed.head
  exact modifiers_other (ofWord?_of_isTypeWord isWord) later

theorem exists_reverse : ∃ last earlier, code.reverse = last :: earlier ∧
    Code.text (last :: earlier).reverse = ty.text := by
  obtain ⟨space, word, start, more, rfl, _⟩ := typed.head
  cases reversed : (CodeToken.ofWord space word start :: more).reverse with
  | nil => simp at reversed
  | cons last earlier =>
      refine ⟨last, earlier, rfl, ?_⟩
      rw [← reversed, List.reverse_reverse, typed.text]

end TypeCode

/-- A member of the class `className` in a layout: it ends with its last token, leaves no bracket
open, and is parsed as a declaration that depends on its position and on where it stands. -/
structure Writes (className : Text) (tokens : List Token) (node : Nat → Excerpt → Node) : Prop where
  ends : ∀ offset, Ends .fresh (laid offset tokens)
  nested : ∀ offset, Token.Nested ((laid offset tokens).map CodeToken.token)
  shape : ∀ (offset : Nat) (piece : Piece) (position : Nat) (source : Excerpt),
    piece.tokens = laid offset tokens →
      memberShape className position piece source = .ok (.node (node position source))

section

variable {className : Text} {position : Nat} {piece : Piece} {source : Excerpt}

theorem memberShape_of_modifiers {run : ModifierRun} (long : 1 < piece.tokens.length)
    (read : modifiers piece.tokens = .ok run) (other : typeKeyword? run.rest = none) :
    memberShape className position piece source =
      (memberNode className position run piece.last source).map .node := by
  unfold memberShape
  rw [if_neg (by simp [Piece.isEmpty_of_length long]), read]
  simp only [other]

variable {found : Modifiers} {taken rest : List CodeToken} {last : CodeToken}

theorem memberNode_ofWord {space word : Text} {start : Nat} :
    memberNode className position ⟨found, taken, .ofWord space word start :: rest⟩ last source =
      namedNode className position none found last source (.ofWord space word start :: rest) := by
  rw [memberNode_cons, if_neg (by simp)]
  simp [typeParams?, bind, Except.bind]

variable {ty : JavaType} {code : List CodeToken}

theorem TypeCode.memberNode_eq (typed : TypeCode ty code)
    (lacks : ∀ next ∈ rest.head?, next.isPunct '(' = false) :
    memberNode className position ⟨found, taken, code ++ rest⟩ last source =
      declarationNode position none found last source (code ++ rest) := by
  have later := typed.lacks_tail (c := '(') (by decide) lacks
  obtain ⟨space, word, start, more, rfl, _⟩ := typed.head
  rw [List.cons_append, memberNode_ofWord]
  rw [List.cons_append, List.tail_cons] at later
  cases following : more ++ rest with
  | nil => rfl
  | cons next others =>
      rw [following] at later
      simp [namedNode, later next rfl]

theorem stripDims_ofWord {space word : Text} {start : Nat} {earlier : List CodeToken} :
    stripDims (.ofWord space word start :: earlier) = (0, .ofWord space word start :: earlier) := by
  rcases earlier with _ | ⟨left, _ | ⟨token, rest⟩⟩ <;> simp [stripDims]

theorem TypeCode.splitMember?_eq (typed : TypeCode ty code) {split : MemberSplit}
    (cut : splitMember? 0 rest = some split) :
    splitMember? 0 (code ++ rest) = some { split with before := code ++ split.before } := by
  rw [typed.passes goesOver_splitMember?, cut, MemberSplit.foldr_push]

theorem TypeCode.declarationNode_field (typed : TypeCode ty code) {space space' name : Text}
    {start stop : Nat} : declarationNode position none found last source
      (code ++ [.ofWord space name start, .ofMark space' ';' stop]) =
      .ok (.field ⟨name, ty.text, found, position, none, 1, source⟩) := by
  have here : splitMember? 0 [.ofWord space name start, .ofMark space' ';' stop] =
      some ⟨.field, [.ofWord space name start], .ofMark space' ';' stop, []⟩ := by
    simp [splitMember?]
  obtain ⟨final, earlier, reversed, ofType⟩ := typed.exists_reverse
  rw [declarationNode, typed.splitMember?_eq here]
  simp only [field?, List.reverse_append, List.reverse_singleton, List.singleton_append, reversed,
    stripDims_ofWord, CodeToken.isIdent_ofWord, if_true, ofType]
  simp [fieldSeparators, separators, fieldInitializer?, withDims]

theorem TypeCode.declarationNode_method (typed : TypeCode ty code) {space space' name : Text}
    {start paren : Nat} : declarationNode position none found last source
      (code ++ .ofWord space name start :: .ofMark space' '(' paren :: rest) =
      methodNode ⟨.method, code ++ [.ofWord space name start], .ofMark space' '(' paren, rest⟩ last
        none found source := by
  have here : splitMember? 0 (.ofWord space name start :: .ofMark space' '(' paren :: rest) =
      some ⟨.method, [.ofWord space name start], .ofMark space' '(' paren, rest⟩ := by
    simp [splitMember?]
  rw [declarationNode, typed.splitMember?_eq here]

end

end Code

namespace DataField

def fieldNode (field : DataField) (position : Nat) (source : Excerpt) : Node :=
  .field
    { name := field.name
      ty := field.ty.text
      modifiers := ⟨[.priv, .final], []⟩
      position
      initializer := none
      declarators := 1
      source }

end DataField

open Code

theorem DataField.exists_laid_field {field : DataField} (proper : field.ty.isProper = true)
    (offset : Nat) : ∃ code start start' start'' stop, TypeCode field.ty code ∧
      laid offset field.fieldTokens = .ofWord "\n    ".toList "private".toList start ::
        .ofWord [' '] "final".toList start' ::
          (code ++ [.ofWord [' '] field.name start'', .ofMark [] ';' stop]) := by
  simp only [fieldTokens, laid_word, laid_append, laid_mark, laid_nil]
  exact ⟨_, _, _, _, _, typeCode_laid proper _ _, rfl⟩

theorem DataField.writes_field {field : DataField} (proper : field.ty.isProper = true)
    (className : Text) : Writes className field.fieldTokens field.fieldNode where
  ends offset := by
    obtain ⟨code, start, start', start'', stop, typed, laid⟩ := exists_laid_field proper offset
    rw [laid]
    have front : ∀ token ∈ .ofWord "\n    ".toList "private".toList start ::
        .ofWord [' '] "final".toList start' :: (code ++ [.ofWord [' '] field.name start'']),
        token.Scanned := by
      simp only [List.mem_cons, List.mem_append, List.not_mem_nil, or_false]
      rintro token (rfl | rfl | listed | rfl)
      · exact scanned_ofWord
      · exact scanned_ofWord
      · exact typed.scanned token listed
      · exact scanned_ofWord
    simpa using ends_of_semicolon [] stop front
  nested offset := by
    have front : Unbracketed [Token.word "\n    ".toList "private".toList,
        Token.word [' '] "final".toList] := by simp [Unbracketed]
    have stop : Unbracketed [Token.word [' '] field.name, Token.mark [] ';'] := by
      simp [Unbracketed]
    exact (front.append ((unbracketed_type [' '] field.ty).append stop)).nested offset
  shape offset piece position source tokens := by
    obtain ⟨code, start, start', start'', stop, typed, laid⟩ := exists_laid_field proper offset
    rw [laid] at tokens
    have own := typed.modifiers_eq [.ofWord [' '] field.name start'', .ofMark [] ';' stop] (by simp)
    have read := modifiers_word (.ofWord "\n    ".toList "private".toList start) rfl
      (show Modifier.ofWord? "private".toList = some .priv by decide) (by simp)
      (modifiers_word (.ofWord [' '] "final".toList start') rfl
        (show Modifier.ofWord? "final".toList = some .final by decide) (typed.lacks _) own)
    rw [← tokens] at read
    rw [memberShape_of_modifiers (by rw [tokens]; simp) read (typed.typeKeyword?_eq _),
      typed.memberNode_eq (by simp), typed.declarationNode_field]
    rfl

end JavaRecords
