import JavaRecords.Proofs.Parse.Moved

set_option autoImplicit false

namespace JavaRecords

def CodeToken.bared (code : CodeToken) : CodeToken :=
  { code with token := { code.token with space := [] }, comments := [] }

/-- Tokens that are alike have the same kind and text and end the same operators. -/
structure CodeToken.Same (code other : CodeToken) : Prop where
  kind : other.token.kind = code.token.kind
  text : other.text = code.text
  assign : other.assign = code.assign

namespace CodeToken.Same

variable {code other : CodeToken} (same : code.Same other)

include same

theorem isPunct (c : Char) : other.isPunct c = code.isPunct c := by
  have text : other.token.text = code.token.text := same.text
  rw [CodeToken.isPunct, CodeToken.isPunct, Token.isPunct, Token.isPunct, same.kind, text]

theorem isWord (word : String) : other.isWord word = code.isWord word := by
  have text : other.token.text = code.token.text := same.text
  rw [CodeToken.isWord, CodeToken.isWord, Token.isWord, Token.isWord, same.kind, text]

end CodeToken.Same

namespace Code

/-- A run of code without what stands before it. -/
def bared : List CodeToken → List CodeToken
  | [] => []
  | first :: rest => first.bared :: rest

end Code

/-- A run of modifiers whose first token, or the one after them, has nothing before it. -/
def ModifierRun.bared (run : ModifierRun) : ModifierRun :=
  match run.taken with
  | [] => { run with rest := Code.bared run.rest }
  | taken => { run with taken := Code.bared taken }

/-- A member cut after a first token that has nothing before it. -/
def Code.MemberSplit.bared (split : Code.MemberSplit) : Code.MemberSplit :=
  match split.before with
  | [] => { split with stop := split.stop.bared }
  | before => { split with before := Code.bared before }

namespace Code

theorem annotation?_bared (sign : CodeToken) (code : List CodeToken) :
    annotation? sign.bared code = (annotation? sign code).map (Option.map fun step =>
      { step with taken := bared step.taken }) := by
  rcases code with _ | ⟨name, rest⟩
  · rfl
  · unfold annotation?
    by_cases named : (name.isIdent && !name.isWord "interface") = true
    · simp only [named, ↓reduceIte]
      generalize qualifiers rest = parts
      obtain ⟨qualifier, remaining⟩ := parts
      rcases remaining with _ | ⟨paren, after⟩
      · rfl
      · by_cases isParen : paren.isPunct '(' = true
        · simp only [isParen, ↓reduceIte]
          cases close '(' ')' paren after <;> rfl
        · simp only [isParen, Bool.false_eq_true, ↓reduceIte]
          rfl
    · simp only [named, Bool.false_eq_true, ↓reduceIte]
      rfl

theorem wordModifier?_bared (word : CodeToken) (rest : List CodeToken) :
    wordModifier? word.bared rest = (wordModifier? word rest).map fun step =>
      { step with taken := bared step.taken } := by
  have ident : word.bared.isIdent = word.isIdent := rfl
  have text : word.bared.text = word.text := rfl
  unfold wordModifier?
  rw [ident, text]
  by_cases isIdent : word.isIdent = true
  · simp only [isIdent, ↓reduceIte, Option.map_map]
    rfl
  · simp [isIdent]

theorem modifier?_bared (first : CodeToken) (rest : List CodeToken) :
    modifier? (first.bared :: rest) = (modifier? (first :: rest)).map (Option.map fun step =>
      { step with taken := bared step.taken }) := by
  have punct : ∀ c, first.bared.isPunct c = first.isPunct c := fun _ => rfl
  have word : ∀ word, first.bared.isWord word = first.isWord word := fun _ => rfl
  unfold modifier?
  simp only [punct, word, annotation?_bared]
  by_cases isSign : first.isPunct '@' = true
  · simp only [isSign, ↓reduceIte]
  · simp only [isSign, Bool.false_eq_true, ↓reduceIte, wordModifier?_bared]
    rcases rest with _ | ⟨dash, _ | ⟨word, after⟩⟩
    · rfl
    · rfl
    · by_cases spelled : (first.isWord "non" && dash.isPunct '-' && word.isWord "sealed") = true
      · simp only [spelled, ↓reduceIte]
        rfl
      · simp only [spelled, Bool.false_eq_true, ↓reduceIte]
        rfl

theorem modifiers_bared (code : List CodeToken) :
    modifiers (bared code) = (modifiers code).map ModifierRun.bared := by
  rcases code with _ | ⟨first, rest⟩
  · rw [bared, modifiers_of_none rfl]
    rfl
  · have one := modifier?_bared first rest
    cases found : modifier? (first :: rest) with
    | error error =>
        rw [found] at one
        rw [modifiers_of_error found, bared, modifiers_of_error one]
        rfl
    | ok step =>
        rw [found] at one
        cases step with
        | none =>
            rw [modifiers_of_none found, bared, modifiers_of_none one]
            rfl
        | some step =>
            obtain ⟨_, nonempty, _⟩ := append_of_modifier? found
            rw [modifiers_of_some found, bared, modifiers_of_some one]
            dsimp only
            cases modifiers step.rest with
            | error error => rfl
            | ok run =>
                obtain ⟨add, taken, rest⟩ := step
                cases taken with
                | nil => exact absurd rfl nonempty
                | cons first taken => rfl

theorem typeParams?_bared (code : List CodeToken) :
    typeParams? (bared code) = (typeParams? code).map fun found =>
      if found.1.isSome then found else (found.1, bared found.2) := by
  rcases code with _ | ⟨angle, rest⟩
  · rfl
  · have punct : angle.bared.isPunct '<' = angle.isPunct '<' := rfl
    simp only [bared, typeParams?, punct]
    by_cases isAngle : angle.isPunct '<' = true
    · simp only [isAngle, ↓reduceIte]
      have same : close '<' '>' angle.bared rest = close '<' '>' angle rest := rfl
      rw [same]
      cases close '<' '>' angle rest <;> rfl
    · simp [isAngle, Except.map]

theorem splitMember?_bared (code : List CodeToken) :
    splitMember? 0 (bared code) = (splitMember? 0 code).map MemberSplit.bared := by
  rcases code with _ | ⟨first, rest⟩
  · rfl
  · have punct : ∀ c, first.bared.isPunct c = first.isPunct c := fun _ => rfl
    have assign : first.bared.assign = first.assign := rfl
    have onward : ∀ found : Option MemberSplit,
        found.map (fun split : MemberSplit =>
          { split with before := first.bared :: split.before }) =
        (found.map (fun split : MemberSplit =>
          { split with before := first :: split.before })).map MemberSplit.bared := by
      intro found
      cases found <;> rfl
    simp only [bared, splitMember?, punct, assign]
    split_ifs
    · exact onward _
    · exact onward _
    · exact onward _
    · rfl
    · rfl
    · rfl
    · exact onward _

/-- Square brackets are taken off in front of a token, whatever stands before it. -/
theorem stripDims_append_bared (first : CodeToken) : (code : List CodeToken) →
    ∃ dims rest, stripDims (code ++ [first]) = (dims, rest ++ [first]) ∧
      stripDims (code ++ [first.bared]) = (dims, rest ++ [first.bared])
  | [] => ⟨0, [], rfl, rfl⟩
  | [right] => ⟨0, [right], rfl, rfl⟩
  | right :: left :: code => by
      obtain ⟨dims, rest, own, other⟩ := stripDims_append_bared first code
      have step : ∀ last : CodeToken, stripDims (right :: left :: (code ++ [last])) =
          if right.isPunct ']' && left.isPunct '[' then
            ((stripDims (code ++ [last])).1 + 1, (stripDims (code ++ [last])).2)
          else (0, right :: left :: (code ++ [last])) := by
        intro last
        cases code <;> rfl
      rw [List.cons_append, List.cons_append, List.cons_append, List.cons_append, step, step, own,
        other]
      split
      · exact ⟨dims + 1, rest, rfl, rfl⟩
      · exact ⟨0, right :: left :: code, rfl, rfl⟩

theorem text_reverse_bared (first : CodeToken) (code tail : List CodeToken) :
    text ((code ++ [first.bared]).reverse ++ tail) = text ((code ++ [first]).reverse ++ tail) := by
  rw [List.reverse_append, List.reverse_append]
  rfl

theorem methodNode_bared (split : MemberSplit) (last : CodeToken) (typeParams : Option Text)
    (modifiers : Modifiers) (source : Excerpt) :
    methodNode split.bared last typeParams modifiers source =
      methodNode split last typeParams modifiers source := by
  obtain ⟨form, before, stop, after⟩ := split
  rcases before with _ | ⟨first, before⟩
  · rfl
  · unfold methodNode
    simp only [MemberSplit.bared, bared, List.reverse_cons]
    rcases before.reverse with _ | ⟨name, others⟩
    · rfl
    · simp only [List.cons_append]
      rcases others with _ | ⟨final, others⟩
      · rfl
      · simp only [List.cons_append, text_reverse_bared]

theorem field?_bared (split : MemberSplit) (modifiers : Modifiers) (position : Nat)
    (source : Excerpt) :
    field? split.bared modifiers position source = field? split modifiers position source := by
  obtain ⟨form, before, stop, after⟩ := split
  rcases before with _ | ⟨first, before⟩
  · rfl
  · have initializer : fieldInitializer? (MemberSplit.bared ⟨form, first :: before, stop, after⟩) =
        fieldInitializer? ⟨form, first :: before, stop, after⟩ := rfl
    unfold field?
    rw [initializer]
    simp only [MemberSplit.bared, bared, List.reverse_cons]
    obtain ⟨dims, rest, own, other⟩ := stripDims_append_bared first before.reverse
    rw [own, other]
    rcases rest with _ | ⟨name, rest⟩
    · rfl
    · rcases rest with _ | ⟨last, rest⟩
      · rfl
      · simp only [List.cons_append, text_reverse_bared]

theorem declarationNode_bared (position : Nat) (found : Modifiers) (last : CodeToken)
    (source : Excerpt) (code : List CodeToken) :
    declarationNode position none found last source (bared code) =
      declarationNode position none found last source code := by
  unfold declarationNode
  rw [splitMember?_bared]
  cases splitMember? 0 code with
  | none => rfl
  | some split =>
      have form : split.bared.form = split.form := by
        obtain ⟨form, before, stop, after⟩ := split
        cases before <;> rfl
      simp only [Option.map_some, form, methodNode_bared, field?_bared]

theorem namedNode_bared (className : Text) (position : Nat) (found : Modifiers) (last : CodeToken)
    (source : Excerpt) (code : List CodeToken) :
    namedNode className position none found last source (bared code) =
      namedNode className position none found last source code := by
  have remaining := declarationNode_bared position found last source code
  rcases code with _ | ⟨name, _ | ⟨paren, after⟩⟩
  · rfl
  · exact remaining
  · by_cases isConstructor :
        (name.isIdent && name.text == className && paren.isPunct '(') = true
    · simp only [bared, namedNode]
      rw [if_pos isConstructor]
      exact if_pos isConstructor
    · simp only [bared, namedNode]
      rw [if_neg isConstructor]
      exact (if_neg isConstructor).trans remaining

theorem memberNode_bared (className : Text) (position : Nat) (run : ModifierRun) (last : CodeToken)
    (source : Excerpt) :
    memberNode className position run.bared last source =
      memberNode className position run last source := by
  obtain ⟨modifiers, taken, rest⟩ := run
  rcases taken with _ | ⟨taken, more⟩
  · rcases rest with _ | ⟨first, rest⟩
    · rfl
    · have punct : ∀ c, first.bared.isPunct c = first.isPunct c := fun _ => rfl
      have isBody : body (first.bared :: rest) = body (first :: rest) := rfl
      have params : typeParams? (first.bared :: rest) = _ := typeParams?_bared (first :: rest)
      have rebuilt : (⟨modifiers, [], first :: rest⟩ : ModifierRun).bared =
          ⟨modifiers, [], first.bared :: rest⟩ := rfl
      rw [rebuilt]
      simp only [memberNode_cons, punct, isBody, params]
      split_ifs
      · rfl
      · cases typeParams? (first :: rest) with
        | error error => rfl
        | ok parts =>
            obtain ⟨_ | typeParams, code⟩ := parts
            · exact namedNode_bared className position modifiers last source code
            · rfl
  · rfl

theorem typeKeyword?_bared (run : ModifierRun) :
    typeKeyword? run.bared.rest = typeKeyword? run.rest := by
  obtain ⟨modifiers, taken, rest⟩ := run
  cases taken with
  | nil => cases rest <;> rfl
  | cons first taken => rfl

theorem classShape_congr (run other : ModifierRun) (code : List CodeToken) {last final : CodeToken}
    (same : final.isPunct '}' = last.isPunct '}') :
    (classShape other code final).map textualType? =
      (classShape run code last).map textualType? := by
  unfold classShape
  rcases code with _ | ⟨name, rest⟩
  · rfl
  · by_cases isIdent : name.isIdent = true
    · simp only [isIdent, ↓reduceIte]
      cases typeParams? rest with
      | error error => rfl
      | ok parts =>
          simp only [same]
          generalize parts.2.dropWhile (fun token => !token.isPunct '{') = block
          cases block with
          | nil => rfl
          | cons opening block => by_cases isClosing : last.isPunct '}' = true <;>
              simp [isClosing, textualType?, Except.map]
    · simp only [isIdent, Bool.false_eq_true, ↓reduceIte]

theorem typeShape_bared (run : ModifierRun) {last final : CodeToken}
    (same : final.isPunct '}' = last.isPunct '}') :
    (typeShape run.bared final).map textualType? = (typeShape run last).map textualType? := by
  unfold typeShape
  rw [typeKeyword?_bared]
  cases typeKeyword? run.rest with
  | none => rfl
  | some found =>
      obtain ⟨kind, code⟩ := found
      cases kind <;> first | exact classShape_congr run run.bared code same | rfl

theorem memberNode_congr (className : Text) (position : Nat) (run : ModifierRun)
    {last final : CodeToken} (same : final.isPunct '}' = last.isPunct '}') (source : Excerpt) :
    memberNode className position run final source =
      memberNode className position run last source := by
  have block : block? final = block? last := by
    funext code
    simp only [block?, same]
  unfold memberNode constructorNode methodNode
  simp only [block]

end Code

/-- A piece without what stands before it. -/
def Piece.bared (piece : Piece) : Piece := ⟨piece.first.bared, piece.rest⟩

theorem Piece.isPunct_last_bared (piece : Piece) (c : Char) :
    piece.bared.last.isPunct c = piece.last.isPunct c := by
  obtain ⟨first, rest⟩ := piece
  rcases List.eq_nil_or_concat rest with rfl | ⟨front, final, rfl⟩
  · rfl
  · simp [Piece.bared, Piece.last, List.getLastD_eq_getLast?]

namespace Code

theorem memberShape_bared (className : Text) (position : Nat) (piece : Piece) (source : Excerpt) :
    (memberShape className position piece.bared source).map memberGist? =
      (memberShape className position piece source).map memberGist? := by
  have tokens : piece.bared.tokens = bared piece.tokens := rfl
  have isEmpty : piece.bared.isEmpty = piece.isEmpty := rfl
  have last := piece.isPunct_last_bared '}'
  unfold memberShape
  rw [isEmpty, tokens, modifiers_bared]
  by_cases empty : piece.isEmpty = true
  · simp only [empty, ↓reduceIte]
  · simp only [empty, Bool.false_eq_true, ↓reduceIte]
    cases modifiers piece.tokens with
    | error error => rfl
    | ok run =>
        have node := (memberNode_congr className position run.bared last source).trans
          (memberNode_bared className position run piece.last source)
        have shape := typeShape_bared run last
        simp only [Except.map, typeKeyword?_bared, node] at shape ⊢
        cases typeKeyword? run.rest with
        | none => rfl
        | some found =>
            generalize typeShape run piece.last = own at shape ⊢
            generalize typeShape run.bared piece.bared.last = other at shape ⊢
            rcases own with error | ⟨kind, name⟩ | inner <;>
              rcases other with error' | ⟨kind', name'⟩ | inner' <;>
              simp_all [memberGist?, textualType?]

/-- Two runs of code are alike: each can be moved to the same place. -/
def Alike (left right : List CodeToken) : Prop :=
  ∃ distance other, (bared left).map (CodeToken.move distance) =
    (bared right).map (CodeToken.move other)

/-- Modifiers of runs that can be moved to the same place. -/
theorem modifiers_of_moved {left right : List CodeToken} {distance reverse : Nat}
    (same : (bared left).map (CodeToken.move distance) = (bared right).map (CodeToken.move reverse))
    {run : ModifierRun} (read : modifiers left = .ok run) :
    ∃ other, modifiers right = .ok other ∧ other.bared.move reverse = run.bared.move distance := by
  have own := modifiers_move distance (bared left)
  have their := modifiers_move reverse (bared right)
  rw [modifiers_bared] at own their
  rw [same, their, read] at own
  cases found : modifiers right with
  | error error =>
      rw [found] at own
      cases own
  | ok other =>
      rw [found] at own
      exact ⟨other, rfl, Except.ok.inj own⟩

theorem Alike.modifiers {left right : List CodeToken} (alike : Alike left right)
    {run : ModifierRun} (read : modifiers left = .ok run) :
    ∃ other, Code.modifiers right = .ok other ∧ other.modifiers = run.modifiers ∧
      other.taken.length = run.taken.length := by
  obtain ⟨distance, reverse, same⟩ := alike
  obtain ⟨other, found, runs⟩ := modifiers_of_moved same read
  have parts : ∀ run : ModifierRun, run.bared.taken.length = run.taken.length ∧
      run.bared.modifiers = run.modifiers := by
    rintro ⟨modifiers, taken, rest⟩
    cases taken <;> exact ⟨rfl, rfl⟩
  have taken := congrArg (fun run => run.taken.length) runs
  have modifiers := congrArg ModifierRun.modifiers runs
  simp only [ModifierRun.move, List.length_map, parts] at taken modifiers
  exact ⟨other, found, modifiers, taken⟩

/-- The pieces that are moved to the same place. -/
theorem Alike.piece {piece other : Piece} (alike : Alike piece.tokens other.tokens) :
    ∃ distance reverse, piece.bared.move distance = other.bared.move reverse := by
  obtain ⟨distance, reverse, same⟩ := alike
  have parts := List.cons.inj same
  exact ⟨distance, reverse, congrArg₂ Piece.mk parts.1 parts.2⟩

theorem moved_map {α β : Type} (distance : Nat) (f : α → β) (result : Except ParseError α) :
    moved distance f result = moved distance id (result.map f) := by
  cases result <;> rfl

theorem Alike.memberShape {piece other : Piece} (alike : Alike piece.tokens other.tokens)
    {className : Text} {position : Nat} {source excerpt : Excerpt} {node : Node}
    (shaped : memberShape className position piece source = .ok (.node node)) :
    ∃ found, Code.memberShape className position other excerpt = .ok (.node found) ∧
      found.gist = node.gist := by
  obtain ⟨distance, reverse, same⟩ := alike.piece
  have own := memberShape_move distance className position piece.bared source source
  have their := memberShape_move reverse className position other.bared excerpt source
  rw [moved_map, memberShape_bared] at own their
  rw [same, their, shaped] at own
  cases found : Code.memberShape className position other excerpt with
  | error error =>
      rw [found] at own
      cases own
  | ok shape =>
      rw [found] at own
      cases shape with
      | classBody shape => cases own
      | node other => exact ⟨other, rfl, Option.some.inj (Except.ok.inj own)⟩

/-- Types of a unit that are alike are kept as the same text. -/
theorem Alike.keeps {piece other : Piece} (alike : Alike piece.tokens other.tokens)
    {kind : TextualKind} {name : Option Text} (kept : Keeps piece kind name) :
    Keeps other kind name := by
  obtain ⟨distance, reverse, same⟩ := alike.piece
  have isEmpty : other.isEmpty = piece.isEmpty := by
    have moved := congrArg Piece.isEmpty same
    rw [Piece.isEmpty_move, Piece.isEmpty_move] at moved
    exact moved.symm
  rcases kept with ⟨empty, rest⟩ | ⟨filled, run, read, shaped⟩
  · exact Or.inl ⟨isEmpty.trans empty, rest⟩
  · have tokens : (bared piece.tokens).map (CodeToken.move distance) =
        (bared other.tokens).map (CodeToken.move reverse) := congrArg Piece.tokens same
    obtain ⟨found, isFound, runs⟩ := modifiers_of_moved tokens read
    have last := congrArg Piece.last same
    rw [Piece.last_move, Piece.last_move] at last
    have own := typeShape_move distance run.bared piece.bared.last
    have their := typeShape_move reverse found.bared other.bared.last
    rw [moved_map, typeShape_bared _ (piece.isPunct_last_bared '}')] at own
    rw [moved_map, typeShape_bared _ (other.isPunct_last_bared '}')] at their
    rw [← runs, last, their, shaped] at own
    refine Or.inr ⟨isEmpty.trans filled, found, isFound, ?_⟩
    cases isShape : typeShape found other.last with
    | error error =>
        rw [isShape] at own
        cases own
    | ok shape =>
        rw [isShape] at own
        cases shape with
        | classBody shape => cases own
        | textual kind name =>
            cases own
            rfl

theorem Alike.tokens {left right : List CodeToken} (alike : Alike left right) :
    List.Forall₂ CodeToken.Same left right := by
  obtain ⟨distance, reverse, same⟩ := alike
  have one : ∀ {code other : CodeToken}, code.move distance = other.move reverse →
      code.Same other := fun moved =>
    ⟨(congrArg (fun code => code.token.kind) moved).symm, (congrArg CodeToken.text moved).symm,
      (congrArg CodeToken.assign moved).symm⟩
  have many : ∀ {left right : List CodeToken},
      left.map (CodeToken.move distance) = right.map (CodeToken.move reverse) →
      List.Forall₂ CodeToken.Same left right := by
    intro left right same
    rw [← List.forall₂_eq_eq_eq, List.forall₂_map_left_iff, List.forall₂_map_right_iff] at same
    exact same.imp fun _ _ => one
  cases left with
  | nil =>
      cases right with
      | nil => exact .nil
      | cons first rest => cases same
  | cons first rest =>
      cases right with
      | nil => cases same
      | cons other others =>
          obtain ⟨head, tail⟩ := List.cons.inj same
          have here := one head
          exact .cons ⟨here.kind, here.text, here.assign⟩ (many tail)

theorem Alike.exists_piece {piece : Piece} {code : List CodeToken}
    (alike : Alike piece.tokens code) :
    ∃ other : Piece, other.tokens = code := by
  obtain ⟨first, rest, _, _, rfl⟩ := List.forall₂_cons_left_iff.mp alike.tokens
  exact ⟨⟨first, rest⟩, rfl⟩

/-- A run that is alike is cut where the other is. What follows its start can be moved to the same
place. -/
theorem Alike.cut {left right other : List CodeToken} (alike : Alike (left ++ right) other) :
    ∃ front back, other = front ++ back ∧ Alike left front ∧
      List.Forall₂ CodeToken.Same right back ∧
      (left ≠ [] → ∃ distance reverse,
        right.map (CodeToken.move distance) = back.map (CodeToken.move reverse)) := by
  have same := alike.tokens
  cases left with
  | nil => exact ⟨[], other, rfl, ⟨0, 0, rfl⟩, same, fun filled => absurd rfl filled⟩
  | cons first left =>
      obtain ⟨distance, reverse, moved⟩ := alike
      cases other with
      | nil => cases moved
      | cons token others =>
          obtain ⟨head, tail⟩ := List.cons.inj moved
          rw [List.append_eq, List.map_append] at tail
          obtain ⟨front, back, rfl, isFront, isBack⟩ := List.map_eq_append_iff.mp tail.symm
          refine ⟨token :: front, back, rfl,
            ⟨distance, reverse, congrArg₂ List.cons head isFront.symm⟩, ?_,
            fun _ => ⟨distance, reverse, isBack.symm⟩⟩
          have count : (first :: left).length = (token :: front).length := by
            have lengths := congrArg List.length isFront
            simpa using lengths.symm
          have dropped := List.forall₂_drop (first :: left).length same
          rwa [List.drop_left, count, ← List.cons_append, List.drop_left] at dropped

end Code
end JavaRecords
