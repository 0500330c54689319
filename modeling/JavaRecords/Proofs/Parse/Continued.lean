import JavaRecords.Proofs.Parse.Alike
import JavaRecords.Proofs.Parse.Scan
import JavaRecords.Proofs.Parse.Tiling

set_option autoImplicit false

namespace JavaRecords

namespace Code

/-- A bracket is closed by the same token, whatever follows. -/
theorem close?_continued {left right : Char} {depth : Nat} {code : List CodeToken}
    {enclosed : Enclosed} (closed : close? left right depth code = some enclosed)
    (more : List CodeToken) :
    close? left right depth (enclosed.inside ++ enclosed.closing :: more) =
      some ⟨enclosed.inside, enclosed.closing, more⟩ := by
  fun_induction close? left right depth code generalizing enclosed with
  | case1 => cases closed
  | case2 depth first rest isOpening ih =>
      obtain ⟨inner, found, rfl⟩ := Option.map_eq_some_iff.mp closed
      simp only [Enclosed.push, List.cons_append, close?, isOpening, ↓reduceIte, ih found,
        Option.map_some]
  | case3 first rest notOpening isClosing =>
      cases closed
      simp [close?, notOpening, isClosing]
  | case4 first rest notOpening isClosing depth ih =>
      obtain ⟨inner, found, rfl⟩ := Option.map_eq_some_iff.mp closed
      simp only [Enclosed.push, List.cons_append, close?, notOpening, isClosing, ↓reduceIte,
        ih found, Option.map_some, Bool.false_eq_true]
  | case5 depth first rest notOpening notClosing ih =>
      obtain ⟨inner, found, rfl⟩ := Option.map_eq_some_iff.mp closed
      simp only [Enclosed.push, List.cons_append, close?, notOpening, notClosing, ↓reduceIte,
        ih found, Option.map_some, Bool.false_eq_true]

def Lacks (c : Char) (code : List CodeToken) : Prop := ∀ first ∈ code.head?, first.isPunct c = false

theorem lacks_cons {c : Char} {first : CodeToken} {rest : List CodeToken} :
    Lacks c (first :: rest) ↔ first.isPunct c = false := by
  simp [Lacks]

theorem qualifiers_of_lacks {code : List CodeToken} (lacks : Lacks '.' code) :
    qualifiers code = ([], code) := by
  rcases code with _ | ⟨first, _ | ⟨second, rest⟩⟩
  · rfl
  · rfl
  · simp [qualifiers, lacks_cons.mp lacks]

theorem qualifiers_continued {rest more : List CodeToken} (lacks : Lacks '.' more) :
    (taken : List CodeToken) → qualifiers (taken ++ rest) = (taken, rest) →
      qualifiers (taken ++ more) = (taken, more)
  | [], _ => qualifiers_of_lacks lacks
  | [single], read => by
      exfalso
      cases rest with
      | nil => cases read
      | cons second rest =>
          simp only [List.singleton_append, qualifiers] at read
          split at read <;> cases read
  | dot :: name :: taken, read => by
      simp only [List.cons_append, qualifiers] at read ⊢
      split at read
      · rename_i named
        obtain ⟨first, second⟩ := Prod.mk.inj read
        have inner : qualifiers (taken ++ rest) = (taken, rest) :=
          Prod.ext (List.cons.inj (List.cons.inj first).2).2 second
        rw [qualifiers_continued lacks taken inner, if_pos named]
      · cases read

/-- What an annotation is: a name with qualifiers, and arguments if a parenthesis follows. -/
theorem annotation?_eq_some {sign : CodeToken} {code : List CodeToken} {step : ModifierStep}
    (found : annotation? sign code = .ok (some step)) :
    ∃ name rest, code = name :: rest ∧ (name.isIdent && !name.isWord "interface") = true ∧
      ((Lacks '(' (qualifiers rest).2 ∧
        step = annotationStep (sign :: name :: (qualifiers rest).1) (qualifiers rest).2) ∨
      ∃ paren after enclosed, (qualifiers rest).2 = paren :: after ∧ paren.isPunct '(' = true ∧
        close? '(' ')' 0 after = some enclosed ∧
        step = annotationStep (sign :: name :: (qualifiers rest).1 ++ paren :: enclosed.inside
          ++ [enclosed.closing]) enclosed.rest) := by
  unfold annotation? at found
  split at found
  · cases found
  · rename_i name rest
    split at found
    · rename_i named
      refine ⟨name, rest, rfl, named, ?_⟩
      dsimp only at found
      split at found
      · rename_i none
        cases found
        rw [none]
        exact .inl ⟨fun _ absent => (by cases absent), rfl⟩
      · rename_i paren after split
        rw [split]
        split at found
        · rename_i isParen
          split at found
          · cases found
          · rename_i enclosed closed
            cases found
            exact .inr ⟨paren, after, enclosed, rfl, isParen, close_eq_ok closed, rfl⟩
        · rename_i notParen
          cases found
          exact .inl ⟨lacks_cons.mpr (by simpa using notParen), rfl⟩
    · cases found

theorem annotation?_continued {sign : CodeToken} {taken rest more : List CodeToken}
    {add : Modifiers}
    (found : annotation? sign (taken ++ rest) = .ok (some ⟨add, sign :: taken, rest⟩))
    (noDot : Lacks '.' more) (noParen : Lacks '(' more) :
    annotation? sign (taken ++ more) = .ok (some ⟨add, sign :: taken, more⟩) := by
  obtain ⟨name, after, split, named, parts⟩ := annotation?_eq_some found
  have joined := qualifiers_append after
  rcases parts with ⟨_, isStep⟩ | ⟨paren, arguments, enclosed, isRest, isParen, closed, isStep⟩
  · simp only [annotationStep, ModifierStep.mk.injEq, List.cons.injEq, true_and] at isStep
    obtain ⟨rfl, rfl, rfl⟩ := isStep
    have read : qualifiers ((qualifiers after).1 ++ (qualifiers after).2) =
        ((qualifiers after).1, (qualifiers after).2) := by rw [joined]
    have again := qualifiers_continued noDot _ read
    simp only [List.cons_append, annotation?, named, ↓reduceIte, again]
    cases more with
    | nil => rfl
    | cons first more => simp [lacks_cons.mp noParen, annotationStep]
  · simp only [annotationStep, ModifierStep.mk.injEq, List.cons_append, List.cons.injEq,
      true_and] at isStep
    obtain ⟨rfl, rfl, rfl⟩ := isStep
    rw [isRest] at joined
    have read : qualifiers ((qualifiers after).1 ++ paren :: arguments) =
        ((qualifiers after).1, paren :: arguments) := by rw [joined, ← isRest]
    have noDotParen : ∀ more, Lacks '.' (paren :: more) := fun _ =>
      lacks_cons.mpr (by rw [CodeToken.isPunct_of_isPunct isParen]; rfl)
    have again := qualifiers_continued
      (noDotParen (enclosed.inside ++ enclosed.closing :: more)) _ read
    have closedAgain := close?_continued closed more
    simp only [List.cons_append, List.append_assoc, List.nil_append, annotation?, named, ↓reduceIte,
      again, isParen, close, closedAgain]
    simp [annotationStep]

theorem modifier?_continued {taken rest more : List CodeToken} {add : Modifiers}
    (found : modifier? (taken ++ rest) = .ok (some ⟨add, taken, rest⟩))
    (noDot : Lacks '.' more) (noParen : Lacks '(' more) :
    modifier? (taken ++ more) = .ok (some ⟨add, taken, more⟩) := by
  obtain ⟨_, nonempty, _⟩ := append_of_modifier? found
  rcases taken with _ | ⟨first, taken⟩
  · exact absurd rfl nonempty
  · have word : wordModifier? first (taken ++ rest) = some ⟨add, first :: taken, rest⟩ →
        first.isPunct '@' = false →
        modifier? (first :: taken ++ more) = .ok (some ⟨add, first :: taken, more⟩) := by
      intro isWord notSign
      unfold wordModifier? at isWord
      split at isWord
      · rename_i isIdent
        obtain ⟨modifier, isModifier, isStep⟩ := Option.map_eq_some_iff.mp isWord
        simp only [ModifierStep.mk.injEq, List.cons.injEq, true_and] at isStep
        obtain ⟨rfl, rfl, _⟩ := isStep
        have here : wordModifier? first more = some ⟨⟨[modifier], []⟩, [first], more⟩ := by
          rw [wordModifier?, if_pos isIdent, isModifier]
          rfl
        have notNon : first.isWord "non" = false := by
          by_contra isNon
          simp only [CodeToken.isWord, Token.isWord, Bool.not_eq_false, Bool.and_eq_true,
            beq_iff_eq] at isNon
          rw [CodeToken.text, isNon.2] at isModifier
          have noModifier : Modifier.ofWord? "non".toList = none := by decide
          exact absurd (noModifier.symm.trans isModifier) (by simp)
        simp only [List.cons_append, List.nil_append, modifier?, notSign, Bool.false_eq_true,
          ↓reduceIte, notNon, Bool.false_and, here]
        rcases more with _ | ⟨dash, _ | ⟨word, after⟩⟩ <;> rfl
      · cases isWord
    simp only [List.cons_append, modifier?] at found
    by_cases isSign : first.isPunct '@' = true
    · rw [if_pos isSign] at found
      have again := annotation?_continued found noDot noParen
      simp only [List.cons_append, modifier?, isSign, ↓reduceIte]
      exact again
    · rw [if_neg isSign] at found
      have notSign : first.isPunct '@' = false := by simpa using isSign
      split at found
      · rename_i _ dash second after split
        split at found
        · rename_i spelled
          have parts := Option.some.inj (Except.ok.inj found)
          simp only [ModifierStep.mk.injEq, List.cons.injEq, true_and] at parts
          obtain ⟨rfl, rfl, _⟩ := parts
          simp [modifier?, notSign, spelled]
        · exact word (Except.ok.inj found) notSign
      · exact word (Except.ok.inj found) notSign

/-- What can follow the modifiers of a declaration. -/
structure Follows (code : List CodeToken) : Prop where
  none : modifier? code = .ok none
  noDot : Lacks '.' code
  noParen : Lacks '(' code

theorem follows_nil : Follows [] :=
  ⟨rfl, fun _ absent => (by cases absent), fun _ absent => (by cases absent)⟩

theorem follows_word {first : CodeToken} {rest : List CodeToken} {word : String}
    (isWord : first.isWord word = true) (noModifier : Modifier.ofWord? word.toList = none)
    (notNon : word ≠ "non") : Follows (first :: rest) := by
  have ident := CodeToken.isIdent_of_isWord isWord
  simp only [CodeToken.isWord, Token.isWord, Bool.and_eq_true, beq_iff_eq] at isWord
  obtain ⟨kind, text⟩ := isWord
  have punct : ∀ c, first.isPunct c = false := CodeToken.isPunct_of_isIdent ident
  have notWord : first.isWord "non" = false := by
    simp only [CodeToken.isWord, Token.isWord, kind, text, beq_self_eq_true, Bool.true_and,
      beq_eq_false_iff_ne]
    exact fun same => notNon (String.toList_inj.mp same)
  refine ⟨?_, lacks_cons.mpr (punct '.'), lacks_cons.mpr (punct '(')⟩
  have none : wordModifier? first rest = none := by
    rw [wordModifier?, if_pos ident, CodeToken.text, text, noModifier]
    rfl
  simp only [modifier?, punct, Bool.false_eq_true, ↓reduceIte, notWord, Bool.false_and, none]
  rcases rest with _ | ⟨dash, _ | ⟨word, after⟩⟩ <;> rfl

/-- A modifier starts with a word or an at sign. -/
theorem lacks_of_modifier? {code : List CodeToken} {step : ModifierStep}
    (found : modifier? code = .ok (some step)) {c : Char} (other : c ≠ '@') : Lacks c code := by
  rcases code with _ | ⟨first, rest⟩
  · exact fun _ absent => (by cases absent)
  · refine lacks_cons.mpr ?_
    have word : ∀ {step : ModifierStep}, wordModifier? first rest = some step →
        first.isPunct c = false := by
      intro step isWord
      unfold wordModifier? at isWord
      split at isWord
      · rename_i isIdent
        exact CodeToken.isPunct_of_isIdent isIdent c
      · cases isWord
    simp only [modifier?] at found
    by_cases isSign : first.isPunct '@' = true
    · rw [CodeToken.isPunct_of_isPunct isSign]
      simpa using Ne.symm other
    · rw [if_neg isSign] at found
      split at found
      · split at found
        · rename_i spelled
          simp only [Bool.and_eq_true] at spelled
          exact CodeToken.isPunct_of_isIdent (CodeToken.isIdent_of_isWord spelled.1.1) c
        · exact word (Except.ok.inj found)
      · exact word (Except.ok.inj found)

/-- Modifiers start with a word or an at sign, or with what follows them if there are none. -/
theorem lacks_of_modifiers {code more : List CodeToken} {run : ModifierRun}
    (read : modifiers code = .ok run) {c : Char} (other : c ≠ '@') (lacks : Lacks c more) :
    Lacks c (run.taken ++ more) := by
  cases one : modifier? code with
  | error error =>
      rw [modifiers_of_error one] at read
      cases read
  | ok step =>
      cases step with
      | none =>
          rw [modifiers_of_none one] at read
          cases read
          exact lacks
      | some step =>
          obtain ⟨joined, nonempty, _⟩ := append_of_modifier? one
          have start := lacks_of_modifier? one other
          rw [modifiers_of_some one] at read
          cases later : modifiers step.rest with
          | error error =>
              rw [later] at read
              cases read
          | ok inner =>
              rw [later] at read
              cases read
              rw [← joined] at start
              obtain ⟨first, rest, split⟩ := List.exists_cons_of_ne_nil nonempty
              rw [split, List.cons_append, lacks_cons] at start
              rw [split]
              exact lacks_cons.mpr start

/-- The modifiers at the start of a declaration are the same whatever follows them. -/
theorem modifiers_continued {taken rest more : List CodeToken} {found : Modifiers}
    (read : modifiers (taken ++ rest) = .ok ⟨found, taken, rest⟩) (follows : Follows more) :
    modifiers (taken ++ more) = .ok ⟨found, taken, more⟩ := by
  generalize whole : taken ++ rest = code at read
  fun_induction modifiers code generalizing taken found with
  | case1 => cases read
  | case2 code none =>
      cases read
      exact modifiers_of_none follows.none
  | case3 => cases read
  | case4 code step one inner later ih =>
      cases read
      obtain ⟨joined, _⟩ := append_of_modifier? one
      obtain ⟨joinedRest, _⟩ := append_of_modifiers later
      have again := ih joinedRest later
      have oneAgain : modifier? (step.taken ++ (inner.taken ++ more)) =
          .ok (some ⟨step.add, step.taken, inner.taken ++ more⟩) :=
        modifier?_continued (joined.symm ▸ one) (lacks_of_modifiers later (by decide) follows.noDot)
          (lacks_of_modifiers later (by decide) follows.noParen)
      rw [List.append_assoc, modifiers_of_some oneAgain, again]
      rfl

/-- Modifiers that are alike can be put in front of something else. -/
theorem modifiers_again {taken rest other more : List CodeToken} {found : Modifiers}
    (read : modifiers (taken ++ rest) = .ok ⟨found, taken, rest⟩) (alike : Alike taken other)
    (follows : Follows more) : modifiers (other ++ more) = .ok ⟨found, other, more⟩ := by
  have alone := modifiers_continued read follows_nil
  rw [List.append_nil] at alone
  obtain ⟨⟨modifiers, front, back⟩, again, isFound, length⟩ := alike.modifiers alone
  obtain ⟨joined, _⟩ := append_of_modifiers again
  dsimp only at isFound length joined
  have none : back = [] := by
    have lengths := alike.tokens.length_eq
    have whole := congrArg List.length joined
    rw [List.length_append] at whole
    exact List.length_eq_zero_iff.mp (by omega)
  subst none isFound
  rw [List.append_nil] at joined
  subst joined
  have nothing : Code.modifiers (front ++ []) = .ok ⟨modifiers, front, []⟩ := by
    rwa [List.append_nil]
  exact modifiers_continued nothing follows

theorem lacks_of_typeParams? {code : List CodeToken} {params : Option Text}
    (read : typeParams? code = .ok (params, code)) : Lacks '<' code := by
  rcases code with _ | ⟨angle, rest⟩
  · exact fun _ absent => (by cases absent)
  · refine lacks_cons.mpr ?_
    by_contra isAngle
    rw [Bool.not_eq_false] at isAngle
    rw [typeParams?, if_pos isAngle] at read
    split at read
    · cases read
    · rename_i enclosed closed
      have shorter := length_rest_of_close? (close_eq_ok closed)
      have same := congrArg (fun found => found.2.length) (Except.ok.inj read)
      simp only [List.length_cons] at same
      omega

/-- Type parameters are the same whatever follows them. -/
theorem typeParams?_continued {taken rest more : List CodeToken} {params : Option Text}
    (read : typeParams? (taken ++ rest) = .ok (params, rest)) (lacks : taken = [] →
      Lacks '<' more) :
    typeParams? (taken ++ more) = .ok (params, more) := by
  have without : ∀ {code : List CodeToken}, Lacks '<' code →
    typeParams? code = .ok (none, code) := by
    intro code lacks
    cases code with
    | nil => rfl
    | cons first code => rw [typeParams?, if_neg (by simp [lacks_cons.mp lacks])]
  cases taken with
  | nil =>
      rw [List.nil_append, without (lacks_of_typeParams? read)] at read
      cases read
      exact without (lacks rfl)
  | cons angle taken =>
      rw [List.cons_append, typeParams?] at read ⊢
      split at read
      · rename_i isAngle
        split at read
        · cases read
        · rename_i enclosed closed
          cases read
          have found := close_eq_ok closed
          have joined := tokens_of_close? found
          have same : enclosed.inside ++ [enclosed.closing] = taken := by
            rw [Enclosed.tokens, List.append_cons] at joined
            exact List.append_cancel_right joined
          have again := close?_continued found more
          rw [List.append_cons, same] at again
          rw [if_pos isAngle, close, again]
      · have lengths := congrArg (fun found => found.2.length) (Except.ok.inj read)
        simp only [List.length_cons, List.length_append] at lengths
        omega

/-- Type parameters that can be moved to the same place are the same. -/
theorem typeParams?_again {code other rest : List CodeToken} {distance reverse : Nat}
    {params : Option Text}
    (same : code.map (CodeToken.move distance) = other.map (CodeToken.move reverse))
    (read : typeParams? code = .ok (params, rest)) :
    ∃ back, typeParams? other = .ok (params, back) ∧
      rest.map (CodeToken.move distance) = back.map (CodeToken.move reverse) := by
  have own := typeParams?_move distance code
  have their := typeParams?_move reverse other
  rw [same, their, read] at own
  cases found : typeParams? other with
  | error error =>
      rw [found] at own
      cases own
  | ok parts =>
      obtain ⟨written, back⟩ := parts
      rw [found] at own
      obtain ⟨isParams, isBack⟩ := Prod.mk.inj (Except.ok.inj own)
      exact ⟨back, congrArg (fun found => Except.ok (found, back)) isParams, isBack.symm⟩

end Code

structure ClassShape.Recurs (shape again : ClassShape) : Prop where
  name : again.name = shape.name
  modifiers : again.modifiers = shape.modifiers
  superclass : Code.headerClause? "extends" again.clauses =
    Code.headerClause? "extends" shape.clauses

namespace Code

theorem classShape_of_parts {run : ModifierRun} {name opening closing : CodeToken}
    {params clauses inside : List CodeToken} {typeParams : Option Text}
    (isName : name.isIdent = true)
    (read : typeParams? (params ++ (clauses ++ opening :: (inside ++ [closing]))) =
      .ok (typeParams, clauses ++ opening :: (inside ++ [closing])))
    (noBrace : ∀ code ∈ clauses, code.isPunct '{' = false) (isOpening : opening.isPunct '{' = true)
    (isClosing : closing.isPunct '}' = true) :
    ∃ shape, classShape run (name :: (params ++ (clauses ++ opening :: (inside ++ [closing]))))
        closing = .ok (.classBody shape) ∧
      shape.name = name.text ∧ shape.modifiers = run.modifiers ∧ shape.clauses = clauses ∧
      shape.inside = inside := by
  have test : ∀ code ∈ clauses, (!code.isPunct '{') = true := fun code listed => by
    simp [noBrace code listed]
  have dropped : (clauses ++ opening :: (inside ++ [closing])).dropWhile
      (fun token => !token.isPunct '{') = opening :: (inside ++ [closing]) := by
    rw [List.dropWhile_append_of_pos test, List.dropWhile_cons_of_neg (by simp [isOpening])]
  have taken : (clauses ++ opening :: (inside ++ [closing])).takeWhile
      (fun token => !token.isPunct '{') = clauses := by
    rw [List.takeWhile_append_of_pos test, List.takeWhile_cons_of_neg (by simp [isOpening]),
      List.append_nil]
  simp only [classShape, isName, ↓reduceIte, read, dropped, isClosing, taken]
  exact ⟨_, rfl, rfl, rfl, rfl, by simp⟩

end Code

theorem Piece.isEmpty_of_length {piece : Piece} (long : 1 < piece.tokens.length) :
    piece.isEmpty = false := by
  obtain ⟨first, rest⟩ := piece
  cases rest with
  | nil => exact absurd long (by simp [Piece.tokens])
  | cons second rest => rfl

namespace ClassLayout

variable {site : Site} {shape : ClassShape} (layout : ClassLayout site.piece shape)

include layout

/-- The type parameters of a class are read alike without its body. -/
theorem typeParams?_header :
    Code.typeParams? (layout.params ++ (shape.clauses ++ [shape.opening])) =
    .ok (shape.typeParams, shape.clauses ++ [shape.opening]) := by
  refine Code.typeParams?_continued layout.typeParams? fun none => ?_
  have lacks := layout.typeParams?
  rw [none, List.nil_append] at lacks
  have start := Code.lacks_of_typeParams? lacks
  cases clauses : shape.clauses <;> rw [clauses] at start <;> exact start

theorem header_again {front : List CodeToken} (alike : Code.Alike (site.front shape) front) :
    ∃ taken keyword name params clauses opening,
      front = taken ++ keyword :: name :: (params ++ (clauses ++ [opening])) ∧
      Code.Alike layout.taken taken ∧ layout.keyword.Same keyword ∧ layout.name.Same name ∧
      Code.typeParams? (params ++ (clauses ++ [opening])) =
        .ok (shape.typeParams, clauses ++ [opening]) ∧
      ∃ distance reverse,
        shape.clauses.map (CodeToken.move distance) = clauses.map (CodeToken.move reverse) ∧
        shape.opening.move distance = opening.move reverse := by
  have split : site.front shape = (layout.taken ++ [layout.keyword]) ++
      layout.name :: (layout.params ++ (shape.clauses ++ [shape.opening])) := by
    rw [layout.front_eq]
    simp
  rw [split] at alike
  obtain ⟨start, back, rfl, alikeStart, sameBack, moves⟩ := alike.cut
  obtain ⟨distance, reverse, moved⟩ := moves (by simp)
  obtain ⟨taken, ends, rfl, alikeTaken, sameEnds, _⟩ := alikeStart.cut
  obtain ⟨keyword, _, isKeyword, none, rfl⟩ := List.forall₂_cons_left_iff.mp sameEnds
  cases none
  obtain ⟨name, rest, isName, _, rfl⟩ := List.forall₂_cons_left_iff.mp sameBack
  obtain ⟨remaining, read, movedClauses⟩ :=
    Code.typeParams?_again (List.cons.inj moved).2 layout.typeParams?_header
  rw [List.map_append] at movedClauses
  obtain ⟨clauses, braces, rfl, sameClauses, sameBrace⟩ :=
    List.map_eq_append_iff.mp movedClauses.symm
  obtain ⟨opening, rfl, isOpening⟩ := List.map_eq_singleton_iff.mp sameBrace
  obtain ⟨params, rfl, _⟩ := Code.append_of_typeParams? read
  exact ⟨taken, keyword, name, params, clauses,
    opening, by simp, alikeTaken, isKeyword, isName, read,
    distance, reverse, sameClauses.symm, isOpening.symm⟩

/-- A class whose header is alike is declared with any body. -/
theorem declares_again {front inside : List CodeToken} {closing : CodeToken} {piece : Piece}
    (alike : Code.Alike (site.front shape) front) (isBrace : closing.isPunct '}' = true)
    (tokens : piece.tokens = front ++ (inside ++ [closing])) :
    ∃ again, Code.Declares piece again ∧ shape.Recurs again ∧ again.inside = inside := by
  obtain ⟨taken, keyword, name, params, clauses, opening, rfl, alikeTaken, isKeyword, isName, read,
    distance, reverse, sameClauses, isOpening⟩ := layout.header_again alike
  have isClass : keyword.isWord "class" = true := (isKeyword.isWord "class").trans layout.isClass
  have noBrace : ∀ code ∈ clauses, code.isPunct '{' = false := by
    intro code listed
    have among := List.mem_map_of_mem (f := CodeToken.move reverse) listed
    rw [← sameClauses] at among
    obtain ⟨own, isOwn, same⟩ := List.mem_map.mp among
    rw [← CodeToken.isPunct_move reverse, ← same, CodeToken.isPunct_move]
    exact layout.clauses own isOwn
  have isBraceOpening : opening.isPunct '{' = true := by
    rw [← CodeToken.isPunct_move reverse, ← isOpening, CodeToken.isPunct_move]
    exact layout.opening
  have readAgain : Code.typeParams? (params ++ (clauses ++ opening :: (inside ++ [closing]))) =
      .ok (shape.typeParams, clauses ++ opening :: (inside ++ [closing])) := by
    refine Code.typeParams?_continued read fun none => ?_
    rw [none, List.nil_append] at read
    have start := Code.lacks_of_typeParams? read
    cases clauses <;> exact start
  have isIdent : name.isIdent = true := by
    have kind := isName.kind
    have own := layout.isName
    simp only [CodeToken.isIdent, Token.isIdent, kind] at own ⊢
    exact own
  have whole : piece.tokens = taken ++ keyword :: name :: (params ++
      (clauses ++ opening :: (inside ++ [closing]))) := by
    rw [tokens]
    simp
  -- the modifiers end in front of the keyword, whatever the body is
  have follows : Code.Follows (keyword :: name :: (params ++
      (clauses ++ opening :: (inside ++ [closing])))) :=
    Code.follows_word isClass (by decide) (by decide)
  have modifiers := layout.modifiers
  rw [layout.tokens] at modifiers
  have run := Code.modifiers_again modifiers alikeTaken follows
  rw [← whole] at run
  have isLast : piece.last = closing := by
    have last := piece.getLast?_tokens
    rw [tokens, ← List.append_assoc, List.getLast?_concat] at last
    exact (Option.some.inj last).symm
  obtain ⟨again, shaped, isNameAgain, isModifiers, isClauses, isInside⟩ :=
    @Code.classShape_of_parts ⟨shape.modifiers, taken, keyword :: name :: (params ++
      (clauses ++ opening :: (inside ++ [closing])))⟩ _ _ _ _ _ _ _ isIdent readAgain noBrace
      isBraceOpening isBrace
  refine ⟨again, ⟨?_, _, run, ?_⟩, ⟨?_, isModifiers, ?_⟩, isInside⟩
  · refine Piece.isEmpty_of_length ?_
    rw [whole, List.length_append, List.length_cons, List.length_cons]
    omega
  · have notSign := CodeToken.isPunct_of_isIdent (CodeToken.isIdent_of_isWord isClass) '@'
    simp only [Code.typeShape, Code.typeKeyword?, notSign, Bool.false_and, Bool.false_eq_true,
      ↓reduceIte, isClass, isLast]
    exact shaped
  · rw [isNameAgain, isName.text, layout.nameText]
  · rw [isClauses, ← Code.headerClause?_move reverse, ← sameClauses, Code.headerClause?_move]

end ClassLayout

namespace Code

structure DeclaresRecord (piece : Piece) : Prop where
  filled : piece.isEmpty = false
  read : ∃ run code, modifiers piece.tokens = .ok run ∧
    typeKeyword? run.rest = some (.recordType, code)

theorem declaresRecord_of_parts {taken rest front more : List CodeToken} {found : Modifiers}
    {keyword name next : CodeToken} {piece : Piece}
    (read : modifiers (taken ++ rest) = .ok ⟨found, taken, rest⟩) (alike : Alike taken front)
    (isRecord : keyword.isWord "record" = true) (isName : name.isIdent = true)
    (isNext : (next.isPunct '(' || next.isPunct '<') = true)
    (tokens : piece.tokens = front ++ keyword :: name :: next :: more) : DeclaresRecord piece := by
  have follows : Follows (keyword :: name :: next :: more) :=
    follows_word isRecord (by decide) (by decide)
  have run := modifiers_again read alike follows
  rw [← tokens] at run
  refine ⟨Piece.isEmpty_of_length ?_, _, name :: next :: more, run, ?_⟩
  · rw [tokens, List.length_append, List.length_cons, List.length_cons]
    omega
  · have notSign := CodeToken.isPunct_of_isIdent (CodeToken.isIdent_of_isWord isRecord) '@'
    have isText : keyword.token.kind = .ident ∧ keyword.token.text = "record".toList := by
      simpa [CodeToken.isWord, Token.isWord] using isRecord
    have others : ∀ word : String, word ≠ "record" → keyword.isWord word = false := by
      intro word different
      simp only [CodeToken.isWord, Token.isWord, isText.1, isText.2, beq_self_eq_true,
        Bool.true_and, beq_eq_false_iff_ne]
      exact fun same => different (String.toList_inj.mp same).symm
    simp only [typeKeyword?, notSign, Bool.false_and, Bool.false_eq_true, ↓reduceIte,
      others "class" (by decide), others "interface" (by decide), others "enum" (by decide),
      isRecord, isName, isNext, Bool.true_and]

variable {piece : Piece} (declares : DeclaresRecord piece)

include declares

theorem DeclaresRecord.keeps : ∃ name, Keeps piece .recordType name := by
  obtain ⟨filled, run, code, read, keyword⟩ := declares
  refine ⟨leadingName? code, .inr ⟨filled, run, read, ?_⟩⟩
  simp only [typeShape, keyword]

theorem DeclaresRecord.memberShape (className : Text) (position : Nat) (source : Excerpt) :
    ∃ name, memberShape className position piece source =
      .ok (.node (textual .recordType name source)) := by
  obtain ⟨filled, run, code, read, keyword⟩ := declares
  refine ⟨leadingName? code, ?_⟩
  simp only [Code.memberShape, filled, Bool.false_eq_true, ↓reduceIte, read, keyword, typeShape]

end Code

end JavaRecords
