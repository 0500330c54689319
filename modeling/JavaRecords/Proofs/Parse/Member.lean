import JavaRecords.Proofs.Parse.Header

set_option autoImplicit false

namespace JavaRecords

namespace Code

theorem suffix_of_close {left right : Char} {opening : CodeToken} {code : List CodeToken}
    {enclosed : Enclosed} (closed : close left right opening code = .ok enclosed) :
    enclosed.rest <:+ code := by
  rw [← tokens_of_close? (close_eq_ok closed)]
  exact (List.suffix_cons _ _).trans (List.suffix_append _ _)

/-- The body `found` is read from a block in the tokens `code`, which end with `last`. -/
def BodyOf (last : CodeToken) (code : List CodeToken) (found : Body) : Prop :=
  ∃ rest block, rest <:+ code ∧ block? last rest = some block ∧ body block = .ok found

theorem constructorNode_cases {name paren last : CodeToken} {rest : List CodeToken}
    {typeParams : Option Text} {modifiers : Modifiers} {source : Excerpt} {node : Node}
    (read : constructorNode name paren rest last typeParams modifiers source = .ok node) :
    (∃ kind label, node = textual kind label source) ∨
      ∃ decl : ConstructorDecl, node = .constructor decl ∧ decl.source = source ∧
        BodyOf last rest decl.body := by
  unfold constructorNode at read
  simp only [bind, Except.bind, pure, Except.pure] at read
  split at read
  · cases read
  · rename_i enclosed closed
    split at read
    · cases read
    · split at read
      · cases read
        exact .inl ⟨_, _, rfl⟩
      · rename_i block isBlock
        split at read
        · cases read
        · rename_i body isBody
          cases read
          exact .inr ⟨_, rfl, rfl, enclosed.rest, block, suffix_of_close closed, isBlock, isBody⟩

theorem methodNode_cases {split : MemberSplit} {last : CodeToken} {typeParams : Option Text}
    {modifiers : Modifiers} {source : Excerpt} {node : Node}
    (read : methodNode split last typeParams modifiers source = .ok node) :
    (∃ kind label, node = textual kind label source) ∨
      ∃ decl : MethodDecl, node = .method decl ∧ decl.source = source ∧
        ∀ body, decl.body = some body → BodyOf last split.after body := by
  unfold methodNode at read
  simp only [bind, Except.bind, pure, Except.pure] at read
  split at read
  · split at read
    · split at read
      · cases read
      · rename_i enclosed closed
        split at read
        · cases read
        · split at read
          · cases read
            exact .inr ⟨_, rfl, rfl, fun _ absent => by cases absent⟩
          · rename_i block isBlock
            cases isBody : body block with
            | error error =>
                rw [isBody] at read
                cases read
            | ok found =>
                rw [isBody] at read
                cases read
                refine .inr ⟨_, rfl, rfl, ?_⟩
                intro body same
                cases same
                exact ⟨enclosed.rest, block, suffix_of_close closed, isBlock, isBody⟩
    · cases read
      exact .inl ⟨_, _, rfl⟩
  · cases read
    exact .inl ⟨_, _, rfl⟩

/-- The method or field of a member, from the tokens after its type parameters. -/
def declarationNode (position : Nat) (typeParams : Option Text) (modifiers : Modifiers)
    (last : CodeToken) (source : Excerpt) (code : List CodeToken) : Except ParseError Node :=
  match splitMember? 0 code with
  | none => .ok (textual .unknown none source)
  | some split =>
      match split.form with
      | .method => methodNode split last typeParams modifiers source
      | .field =>
          .ok (match field? split modifiers position source with
            | some decl => .field decl
            | none => textual .unknown none source)

/-- The constructor, method or field of a member, from the tokens after its type parameters. -/
def namedNode (className : Text) (position : Nat) (typeParams : Option Text) (modifiers : Modifiers)
    (last : CodeToken) (source : Excerpt) (code : List CodeToken) : Except ParseError Node :=
  match code with
  | name :: paren :: after =>
      if name.isIdent && name.text == className && paren.isPunct '(' then
        constructorNode name paren after last typeParams modifiers source
      else declarationNode position typeParams modifiers last source code
  | _ => declarationNode position typeParams modifiers last source code

theorem memberNode_cons (className : Text) (position : Nat) (modifiers : Modifiers)
    (taken : List CodeToken) (first : CodeToken) (rest : List CodeToken) (last : CodeToken)
    (source : Excerpt) :
    memberNode className position ⟨modifiers, taken, first :: rest⟩ last source =
      if first.isPunct '{' then
        (body (first :: rest)).map fun body => .initializer ⟨modifiers.has .static, body, source⟩
      else typeParams? (first :: rest) >>= fun parts =>
        namedNode className position parts.1 modifiers last source parts.2 := by
  unfold memberNode
  dsimp only
  split_ifs
  · cases body (first :: rest) <;> rfl
  · cases typeParams? (first :: rest) with
    | error error => rfl
    | ok parts =>
        obtain ⟨typeParams, code⟩ := parts
        rcases code with _ | ⟨name, _ | ⟨paren, after⟩⟩ <;> rfl

theorem declarationNode_cases {position : Nat} {typeParams : Option Text} {modifiers : Modifiers}
    {last : CodeToken} {source : Excerpt} {code : List CodeToken} {node : Node}
    (read : declarationNode position typeParams modifiers last source code = .ok node) :
    node = textual .unknown none source ∨
      ∃ split, splitMember? 0 code = some split ∧
        (methodNode split last typeParams modifiers source = .ok node ∨
        ∃ decl, field? split modifiers position source = some decl ∧ node = .field decl) := by
  unfold declarationNode at read
  split at read
  · cases read
    exact .inl rfl
  · rename_i split isSplit
    split at read
    · exact .inr ⟨split, isSplit, .inl read⟩
    · split at read
      · rename_i decl field
        cases read
        exact .inr ⟨split, isSplit, .inr ⟨decl, field, rfl⟩⟩
      · cases read
        exact .inl rfl

/-- What a member is that is not a type. -/
theorem memberNode_cases {className : Text} {position : Nat} {run : ModifierRun} {last : CodeToken}
    {source : Excerpt} {node : Node}
    (read : memberNode className position run last source = .ok node) :
    node = textual .unknown none source ∨
    (∃ first rest block, run.rest = first :: rest ∧ first.isPunct '{' = true ∧
      body run.rest = .ok block ∧
      node = .initializer ⟨run.modifiers.has .static, block, source⟩) ∨
    ∃ typeParams code, typeParams? run.rest = .ok (typeParams, code) ∧
      ((∃ name paren after, code = name :: paren :: after ∧
        constructorNode name paren after last typeParams run.modifiers source = .ok node) ∨
      ∃ split, splitMember? 0 code = some split ∧
        (methodNode split last typeParams run.modifiers source = .ok node ∨
        ∃ decl, field? split run.modifiers position source = some decl ∧ node = .field decl)) := by
  obtain ⟨modifiers, taken, _ | ⟨first, rest⟩⟩ := run
  · cases read
    exact .inl rfl
  · rw [memberNode_cons] at read
    dsimp only
    split at read
    · rename_i isBrace
      cases isBody : body (first :: rest) with
      | error error =>
          rw [isBody] at read
          cases read
      | ok block =>
          rw [isBody] at read
          cases read
          exact .inr (.inl ⟨first, rest, block, rfl, isBrace, rfl, rfl⟩)
    · cases params : typeParams? (first :: rest) with
      | error error =>
          rw [params] at read
          cases read
      | ok result =>
          obtain ⟨typeParams, code⟩ := result
          rw [params] at read
          change namedNode className position typeParams modifiers last source code =
            .ok node at read
          unfold namedNode at read
          split at read
          · rename_i name paren after
            split at read
            · exact .inr (.inr ⟨typeParams, _, rfl, .inl ⟨name, paren, after, rfl, read⟩⟩)
            · exact (declarationNode_cases read).imp_right fun isSplit =>
                .inr ⟨typeParams, _, rfl, .inr isSplit⟩
          · exact (declarationNode_cases read).imp_right fun isSplit =>
              .inr ⟨typeParams, _, rfl, .inr isSplit⟩

theorem stripDims_suffix (code : List CodeToken) : (stripDims code).2 <:+ code := by
  fun_induction stripDims code with
  | case1 right left token rest _ dims remaining split ih =>
      rw [split] at ih
      exact ih.trans ((List.suffix_cons left _).trans (List.suffix_cons right _))
  | case2 => exact List.suffix_rfl
  | case3 => exact List.suffix_rfl

theorem append_of_splitMember? {angles : Nat} {code : List CodeToken} {split : MemberSplit}
    (found : splitMember? angles code = some split) :
    split.before ++ split.stop :: split.after = code := by
  induction code generalizing angles split with
  | nil => cases found
  | cons first rest ih =>
      have onward : ∀ angles, (splitMember? angles rest).map (fun inner : MemberSplit =>
          { inner with before := first :: inner.before }) = some split →
          split.before ++ split.stop :: split.after = first :: rest := by
        intro angles onward
        obtain ⟨inner, isInner, rfl⟩ := Option.map_eq_some_iff.mp onward
        rw [List.cons_append, ih isInner]
      unfold splitMember? at found
      split at found
      · exact onward _ found
      · split at found
        · exact onward _ found
        · split at found
          · exact onward _ found
          · split at found
            · cases found
              rfl
            · split at found
              · cases found
                rfl
              · split at found
                · cases found
                · exact onward _ found

/-- The type and the name of a field stand at the start of its declaration. -/
theorem parts_of_field? {split : MemberSplit} {modifiers : Modifiers} {position : Nat}
    {source : Excerpt} {decl : FieldDecl}
    (read : field? split modifiers position source = some decl) :
    decl.modifiers = modifiers ∧ decl.source = source ∧
      ∃ part name dims, part ++ [name] <+: split.before ∧
      name.isIdent = true ∧ decl.name = name.text ∧ decl.ty = withDims (text part) dims := by
  unfold field? at read
  split at read
  · rename_i dims name last rest stripped
    split at read
    · rename_i isIdent
      cases read
      refine ⟨rfl, rfl, (last :: rest).reverse, name, dims, ?_, isIdent, rfl, rfl⟩
      have left := stripDims_suffix split.before.reverse
      rw [stripped] at left
      have front := List.reverse_prefix.mpr left
      rwa [List.reverse_reverse, List.reverse_cons] at front
    · cases read
  · cases read

theorem memberNode_of_memberShape {className : Text} {position : Nat} {piece : Piece}
    {source : Excerpt} {node : Node}
    (shaped : memberShape className position piece source = .ok (.node node)) :
    (∃ kind name, node = textual kind name source) ∨
      ∃ run, modifiers piece.tokens = .ok run ∧
        memberNode className position run piece.last source = .ok node := by
  unfold memberShape at shaped
  split at shaped
  · cases shaped
    exact .inl ⟨_, _, rfl⟩
  · split at shaped
    · cases shaped
    · rename_i run isRun
      split at shaped
      · cases read : memberNode className position run piece.last source with
        | error error =>
            rw [read] at shaped
            cases shaped
        | ok found =>
            rw [read] at shaped
            cases shaped
            exact .inr ⟨run, isRun, read⟩
      · split at shaped
        · cases shaped
        · cases shaped
          exact .inl ⟨_, _, rfl⟩
        · cases shaped

/-- A field is cut from the tokens after its modifiers. -/
theorem field_of_memberShape {className : Text} {position : Nat} {piece : Piece} {source : Excerpt}
    {decl : FieldDecl}
    (shaped : memberShape className position piece source = .ok (.node (.field decl))) :
    ∃ run params code split, modifiers piece.tokens = .ok run ∧
      typeParams? run.rest = .ok (params, code) ∧ splitMember? 0 code = some split ∧
      field? split run.modifiers position source = some decl := by
  rcases memberNode_of_memberShape shaped with ⟨kind, name, isText⟩ | ⟨run, isRun, read⟩
  · cases isText
  · rcases memberNode_cases read with
      isText | ⟨_, _, block, _, _, _, isBlock⟩ | ⟨typeParams, code, params, parts⟩
    · cases isText
    · cases isBlock
    · rcases parts with ⟨name, paren, after, _, made⟩
        | ⟨split, isSplit, made | ⟨found, field, same⟩⟩
      · rcases constructorNode_cases made with ⟨kind, label, isText⟩ | ⟨_, isConstructor, _⟩
        · cases isText
        · cases isConstructor
      · rcases methodNode_cases made with ⟨kind, label, isText⟩ | ⟨_, isMethod, _⟩
        · cases isText
        · cases isMethod
      · cases same
        exact ⟨run, typeParams, code, split, isRun, params, isSplit, field⟩

end Code

/-- A field whose annotations and type are runs of the tokens of a piece, one after the other. -/
structure FieldLayout (piece : Piece) (decl : FieldDecl) where
  annotations : List (List CodeToken)
  ty : List CodeToken
  dims : Nat
  name : CodeToken
  annotationTexts : decl.modifiers.annotations = annotations.map Code.text
  tyText : decl.ty = Code.withDims (Code.text ty) dims
  nameText : decl.name = name.text
  parts : List.Sublist (annotations.flatten ++ ty) piece.tokens
  infixes : ∀ part ∈ annotations ++ [ty], part <:+: piece.tokens
  isName : name ∈ piece.tokens
  isIdent : name.isIdent = true

theorem FieldLayout.exists_of_memberShape {className : Text} {position : Nat} {piece : Piece}
    {source : Excerpt} {decl : FieldDecl}
    (shaped : Code.memberShape className position piece source = .ok (.node (.field decl))) :
    Nonempty (FieldLayout piece decl) := by
  obtain ⟨run, params, code, split, isRun, isParams, isSplit, field⟩ :=
    Code.field_of_memberShape shaped
  obtain ⟨joined, annotations, texts, sub, infixes⟩ := Code.append_of_modifiers isRun
  obtain ⟨taken, joinedParams, _⟩ := Code.append_of_typeParams? isParams
  have joinedSplit := Code.append_of_splitMember? isSplit
  obtain ⟨isModifiers, _, part, name, dims, front, isIdent, isName, isType⟩ :=
    Code.parts_of_field? field
  have behind : split.before <:+: run.rest := by
    rw [← joinedParams, ← joinedSplit]
    exact ⟨taken, split.stop :: split.after, by simp⟩
  have typed : part ++ [name] <:+: run.rest := front.isInfix.trans behind
  have ty : part <:+: run.rest := (List.prefix_append part [name]).isInfix.trans typed
  have later : run.rest <:+: piece.tokens := by
    rw [← joined]
    exact (List.suffix_append _ _).isInfix
  exact ⟨{
    annotations := annotations
    ty := part
    dims := dims
    name := name
    annotationTexts := by rw [isModifiers, texts]
    tyText := isType
    nameText := isName
    parts := by
      rw [← joined]
      exact sub.append ty.sublist
    infixes := by
      intro part listed
      rcases List.mem_append.mp listed with among | last
      · refine (infixes part among).trans ?_
        rw [← joined]
        exact (List.prefix_append _ _).isInfix
      · rw [List.mem_singleton.mp last]
        exact ty.trans later
    isName := later.subset (typed.subset (by simp))
    isIdent := isIdent }⟩

end JavaRecords
