import JavaRecords.Proofs.Code.Runs
import JavaRecords.Proofs.Parse.Outline

set_option autoImplicit false

namespace JavaRecords

namespace Code

theorem qualifiers_append (code : List CodeToken) :
    (qualifiers code).1 ++ (qualifiers code).2 = code := by
  fun_induction qualifiers code with
  | case1 dot name rest named more remaining split ih =>
      rw [split] at ih
      simp only [List.cons_append, ih]
  | case2 => rfl
  | case3 => rfl

theorem close_eq_ok {left right : Char} {opening : CodeToken} {code : List CodeToken}
    {enclosed : Enclosed} (closed : close left right opening code = .ok enclosed) :
    close? left right 0 code = some enclosed := by
  unfold close at closed
  split at closed
  · cases closed
    assumption
  · cases closed

theorem append_of_annotation? {sign : CodeToken} {code : List CodeToken} {step : ModifierStep}
    (found : annotation? sign code = .ok (some step)) :
    step.taken ++ step.rest = sign :: code ∧ step.taken ≠ [] ∧
      step.add = ⟨[], [text step.taken]⟩ := by
  unfold annotation? at found
  split at found
  · cases found
  · rename_i name rest
    split at found
    · have joined := qualifiers_append rest
      dsimp only at found
      split at found
      · rename_i split
        cases found
        rw [split, List.append_nil] at joined
        exact ⟨by simp [annotationStep, joined], by simp [annotationStep], rfl⟩
      · rename_i paren after split
        rw [split] at joined
        split at found
        · split at found
          · cases found
          · rename_i arguments closed
            cases found
            have inner := tokens_of_close? (close_eq_ok closed)
            rw [← inner] at joined
            exact ⟨by simpa [annotationStep, Enclosed.tokens] using joined,
              by simp [annotationStep], rfl⟩
        · cases found
          exact ⟨by simp [annotationStep, joined], by simp [annotationStep], rfl⟩
    · cases found

theorem append_of_wordModifier? {word : CodeToken} {rest : List CodeToken} {step : ModifierStep}
    (found : wordModifier? word rest = some step) :
    step.taken ++ step.rest = word :: rest ∧ step.taken ≠ [] ∧ step.add.annotations = [] := by
  unfold wordModifier? at found
  split at found
  · obtain ⟨modifier, _, rfl⟩ := Option.map_eq_some_iff.mp found
    exact ⟨rfl, by simp, rfl⟩
  · cases found

/-- A modifier is made of the tokens it takes, and its annotation is their text. -/
theorem append_of_modifier? {code : List CodeToken} {step : ModifierStep}
    (found : modifier? code = .ok (some step)) :
    step.taken ++ step.rest = code ∧ step.taken ≠ [] ∧
      (step.add.annotations = [] ∨ step.add.annotations = [text step.taken]) := by
  unfold modifier? at found
  split at found
  · cases found
  · rename_i first rest
    split at found
    · obtain ⟨joined, nonempty, add⟩ := append_of_annotation? found
      exact ⟨joined, nonempty, Or.inr (by rw [add])⟩
    · split at found
      · split at found
        · cases found
          exact ⟨rfl, by simp, Or.inl rfl⟩
        · obtain ⟨joined, nonempty, none⟩ := append_of_wordModifier? (Except.ok.inj found)
          exact ⟨joined, nonempty, Or.inl none⟩
      · obtain ⟨joined, nonempty, none⟩ := append_of_wordModifier? (Except.ok.inj found)
        exact ⟨joined, nonempty, Or.inl none⟩

/-- The modifiers of a declaration are the tokens they take, and the annotations are the texts of
runs of them, one after the other. -/
theorem append_of_modifiers {code : List CodeToken} {run : ModifierRun}
    (read : modifiers code = .ok run) :
    run.taken ++ run.rest = code ∧
      ∃ parts : List (List CodeToken), run.modifiers.annotations = parts.map text ∧
        List.Sublist parts.flatten run.taken ∧ ∀ part ∈ parts, part <:+: run.taken := by
  fun_induction modifiers code generalizing run with
  | case1 => cases read
  | case2 =>
      cases read
      exact ⟨rfl, [], rfl, .slnil, fun _ listed => absurd listed List.not_mem_nil⟩
  | case3 => cases read
  | case4 code step found inner more ih =>
      cases read
      obtain ⟨joined, _, annotation⟩ := append_of_modifier? found
      obtain ⟨joinedRest, parts, texts, sub, infixes⟩ := ih more
      refine ⟨by rw [List.append_assoc, joinedRest, joined], ?_⟩
      have later : ∀ part ∈ parts, part <:+: step.taken ++ inner.taken := fun part listed =>
        (infixes part listed).trans (List.suffix_append _ _).isInfix
      rcases annotation with none | single
      · exact ⟨parts, by rw [none, texts, List.nil_append],
          sub.trans (List.sublist_append_right _ _), later⟩
      · refine ⟨step.taken :: parts, by rw [single, texts]; rfl,
          (List.Sublist.refl _).append sub, ?_⟩
        intro part listed
        rcases List.mem_cons.mp listed with rfl | among
        · exact (List.prefix_append _ _).isInfix
        · exact later part among

theorem append_of_typeParams? {code rest : List CodeToken} {params : Option Text}
    (read : typeParams? code = .ok (params, rest)) :
    ∃ taken, taken ++ rest = code ∧
      ((params = none ∧ taken = []) ∨ (params = some (text taken) ∧ taken ≠ [])) := by
  unfold typeParams? at read
  split at read
  · cases read
    exact ⟨[], rfl, Or.inl ⟨rfl, rfl⟩⟩
  · rename_i angle after
    split at read
    · split at read
      · cases read
      · rename_i enclosed closed
        cases read
        have inner := tokens_of_close? (close_eq_ok closed)
        refine ⟨angle :: enclosed.inside ++ [enclosed.closing], ?_, Or.inr ⟨rfl, by simp⟩⟩
        rw [← inner]
        simp [Enclosed.tokens]
    · cases read
      exact ⟨[], rfl, Or.inl ⟨rfl, rfl⟩⟩

theorem typeKeyword?_eq_classType {code rest : List CodeToken}
    (found : typeKeyword? code = some (.classType, rest)) :
    ∃ keyword, code = keyword :: rest ∧ keyword.isWord "class" = true := by
  unfold typeKeyword? at found
  split at found
  · cases found
  · rename_i first after
    split at found
    · cases found
    · split at found
      · rename_i isClass
        cases found
        exact ⟨first, rfl, isClass⟩
      · split at found
        · cases found
        · split at found
          · cases found
          · split at found
            · split at found
              · split at found <;> cases found
              · cases found
            · cases found

theorem dropLast_block {front block : List CodeToken} {opening last : CodeToken}
    (isLast : (front ++ opening :: block).getLast? = some last)
    (brace : opening.isPunct '{' = true) (closing : last.isPunct '}' = true) :
    block.dropLast ++ [last] = block := by
  rcases List.eq_nil_or_concat block with rfl | ⟨inside, final, rfl⟩
  · simp only [List.getLast?_append, List.getLast?_cons, List.getLast?_nil, Option.getD_none,
      Option.some_or, Option.some.injEq] at isLast
    rw [← isLast, CodeToken.isPunct, Token.isPunct] at closing
    rw [CodeToken.isPunct, Token.isPunct] at brace
    simp only [Bool.and_eq_true, beq_iff_eq] at closing brace
    rw [brace.2] at closing
    simp at closing
  · rw [List.concat_eq_append] at *
    simp only [List.getLast?_append, List.getLast?_cons, Option.some_or, Option.getD_some,
      List.getLast?_nil, Option.getD_none, Option.some.injEq] at isLast
    simp [isLast]

structure ClassParts (run : ModifierRun) (code : List CodeToken) (last : CodeToken)
    (shape : ClassShape) where
  name : CodeToken
  params : List CodeToken
  block : List CodeToken
  code : code = name :: (params ++ (shape.clauses ++ shape.opening :: block))
  isName : name.isIdent = true
  nameText : shape.name = name.text
  modifiers : shape.modifiers = run.modifiers
  headerPrefix : shape.headerPrefix = headerPrefix run.taken run.rest.head?
  typeParams? : typeParams? (params ++ (shape.clauses ++ shape.opening :: block)) =
    .ok (shape.typeParams, shape.clauses ++ shape.opening :: block)
  typeParams : (shape.typeParams = none ∧ params = []) ∨
    (shape.typeParams = some (text params) ∧ params ≠ [])
  clauses : ∀ code ∈ shape.clauses, code.isPunct '{' = false
  comments : shape.comments =
    (name :: (params ++ (shape.clauses ++ [shape.opening]))).flatMap CodeToken.comments
  opening : shape.opening.isPunct '{' = true
  inside : shape.inside = block.dropLast
  isLast : last = shape.closing
  closing : last.isPunct '}' = true

theorem ClassParts.exists_of_classShape {run : ModifierRun} {code : List CodeToken}
    {last : CodeToken} {shape : ClassShape}
    (shaped : classShape run code last = .ok (.classBody shape)) :
    Nonempty (ClassParts run code last shape) := by
  unfold classShape at shaped
  split at shaped
  · cases shaped
  rename_i name rest
  split at shaped
  case isFalse => cases shaped
  rename_i isName
  split at shaped
  · cases shaped
  rename_i typeParams remaining readParams
  obtain ⟨params, joinedParams, paramsText⟩ := append_of_typeParams? readParams
  dsimp only at shaped
  split at shaped
  · cases shaped
  rename_i opening block dropped
  split at shaped
  case isFalse => cases shaped
  rename_i isClosing
  cases shaped
  have parts := List.takeWhile_append_dropWhile
    (p := fun token : CodeToken => !token.isPunct '{') (l := remaining)
  rw [dropped] at parts
  have brace : opening.isPunct '{' = true := by
    have head := List.head?_dropWhile_not (fun token : CodeToken => !token.isPunct '{') remaining
    rw [dropped] at head
    simpa using head
  have header : name :: rest = name :: (params ++
      (remaining.takeWhile (fun token => !token.isPunct '{') ++ [opening])) ++ block := by
    rw [← joinedParams]
    nth_rewrite 1 [← parts]
    simp
  refine ⟨{
    name := name
    params := params
    block := block
    code := by rw [parts, joinedParams]
    isName := isName
    nameText := rfl
    modifiers := rfl
    headerPrefix := rfl
    typeParams? := by rw [parts, joinedParams, readParams]
    typeParams := paramsText
    clauses := fun code listed => by simpa using List.mem_takeWhile_imp listed
    comments := ?_
    opening := brace
    inside := rfl
    isLast := rfl
    closing := isClosing }⟩
  dsimp only
  rw [header, List.length_append, Nat.add_sub_cancel, List.take_left]

end Code

/-- The tokens of a class declaration, part by part. -/
structure ClassLayout (piece : Piece) (shape : ClassShape) where
  taken : List CodeToken
  keyword : CodeToken
  name : CodeToken
  params : List CodeToken
  tokens : piece.tokens = taken ++ keyword :: name :: (params ++ (shape.clauses ++
    shape.opening :: (shape.inside ++ [shape.closing])))
  modifiers : Code.modifiers piece.tokens = .ok ⟨shape.modifiers, taken, keyword :: name ::
    (params ++ (shape.clauses ++ shape.opening :: (shape.inside ++ [shape.closing])))⟩
  isClass : keyword.isWord "class" = true
  isName : name.isIdent = true
  nameText : shape.name = name.text
  typeParams? : Code.typeParams? (params ++ (shape.clauses ++
    shape.opening :: (shape.inside ++ [shape.closing]))) =
      .ok (shape.typeParams, shape.clauses ++ shape.opening :: (shape.inside ++ [shape.closing]))
  typeParams : (shape.typeParams = none ∧ params = []) ∨
    (shape.typeParams = some (Code.text params) ∧ params ≠ [])
  clauses : ∀ code ∈ shape.clauses, code.isPunct '{' = false
  opening : shape.opening.isPunct '{' = true
  closing : shape.closing.isPunct '}' = true
  isLast : piece.last = shape.closing
  headerPrefix : shape.headerPrefix = Code.headerPrefix taken (some keyword)
  comments : shape.comments =
    (name :: (params ++ (shape.clauses ++ [shape.opening]))).flatMap CodeToken.comments

namespace ClassLayout

/-- The comments of a header stand in front of tokens of the class. -/
theorem exists_of_mem_comments {piece : Piece} {shape : ClassShape}
    (layout : ClassLayout piece shape) {comment : Token} (listed : comment ∈ shape.comments) :
    ∃ code ∈ piece.tokens, comment ∈ code.comments := by
  rw [layout.comments] at listed
  obtain ⟨code, inHeader, inside⟩ := List.mem_flatMap.mp listed
  refine ⟨code, ?_, inside⟩
  rw [layout.tokens]
  simp only [List.mem_cons, List.mem_append, List.not_mem_nil, or_false] at inHeader ⊢
  tauto

theorem isPunct_text {code : CodeToken} {c : Char} (punct : code.isPunct c = true) :
    code.token.kind = .punct ∧ code.text = [c] := by
  simpa [CodeToken.isPunct, Token.isPunct, CodeToken.text] using punct

theorem exists_of_declares {piece : Piece} {shape : ClassShape}
    (declares : Code.Declares piece shape) : Nonempty (ClassLayout piece shape) := by
  obtain ⟨_, run, read, shaped⟩ := declares
  obtain ⟨joined, _⟩ := Code.append_of_modifiers read
  unfold Code.typeShape at shaped
  split at shaped
  · cases shaped
  · rename_i code found
    obtain ⟨keyword, split, isClass⟩ := Code.typeKeyword?_eq_classType found
    obtain ⟨parts⟩ := Code.ClassParts.exists_of_classShape shaped
    have whole : piece.tokens = run.taken ++ keyword :: parts.name :: (parts.params ++
        (shape.clauses ++ shape.opening :: parts.block)) := by
      rw [← joined, split]
      exact congrArg (fun code => run.taken ++ keyword :: code) parts.code
    have block : shape.inside ++ [shape.closing] = parts.block := by
      have isLast := piece.getLast?_tokens
      rw [whole, ← List.cons_append, ← List.cons_append, ← List.append_assoc, ← List.append_assoc]
        at isLast
      rw [parts.inside, ← parts.isLast]
      exact Code.dropLast_block isLast parts.opening parts.closing
    exact ⟨{
      taken := run.taken
      keyword := keyword
      name := parts.name
      params := parts.params
      tokens := by rw [whole, block]
      modifiers := by rw [read, block, ← parts.code, ← split, parts.modifiers]
      isClass := isClass
      isName := parts.isName
      nameText := parts.nameText
      typeParams? := by rw [block, parts.typeParams?]
      typeParams := parts.typeParams
      clauses := parts.clauses
      opening := parts.opening
      closing := parts.isLast ▸ parts.closing
      isLast := parts.isLast
      headerPrefix := by rw [parts.headerPrefix, split]; rfl
      comments := parts.comments }⟩
  · cases shaped

end ClassLayout

end JavaRecords
