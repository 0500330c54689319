import JavaRecords.Proofs.Indexed.Fields

set_option autoImplicit false

namespace JavaRecords.Indexed

namespace Tape

variable (tape : Tape)

/-- A declaration that is kept as text, with the identifier at a place for its name. -/
def textual (kind : TextualKind) (name : Option Nat) (source : Excerpt) : Run Node :=
  match name with
  | none => return Code.textual kind none source
  | some i =>
      if tape.isIdent i then do
        let word ← tape.text i
        return Code.textual kind (some word) source
      else return Code.textual kind none source

def findBrace (limit k : Nat) : Option Nat :=
  if _ : k < limit then if tape.isPunct k '{' then some k else findBrace limit (k + 1) else none
termination_by limit - k

/-- The place where the block of a declaration starts that ends with the token `last`. -/
def blockStart (last k : Nat) : Option Nat :=
  (tape.findBrace (last + 1) k).filter fun _ => tape.isPunct last '}'

def constructorNode (className : Text) (i last : Nat) (typeParams : Option Text)
    (modifiers : Modifiers) (source : Excerpt) : Run Node := do
  let closing ← tape.matching (i + 1) '(' ')' (last + 1)
  let params ← tape.params (i + 2) closing
  match tape.blockStart last (closing + 1) with
  | none => tape.textual .unknown (some i) source
  | some opening =>
      let body ← tape.body opening last
      return .constructor ⟨className, modifiers, typeParams, params, body, source⟩

def methodBody (last k : Nat) : Run (Option Body) :=
  match tape.blockStart last k with
  | none => return none
  | some opening => (tape.body opening last).map some

/-- The method whose type starts at the place `i` and whose parameters start at the
place `paren`. -/
def methodNode (i paren last : Nat) (typeParams : Option Text) (modifiers : Modifiers)
    (source : Excerpt) : Run Node :=
  if paren < i + 2 then tape.textual .unknown none source
  else do
    let name ← sub paren 1
    if tape.isIdent name then do
      let closing ← tape.matching paren '(' ')' (last + 1)
      let params ← tape.params (paren + 1) closing
      let body ← tape.methodBody last (closing + 1)
      let word ← tape.text name
      let final ← sub paren 2
      let ty ← tape.spanText i final
      return .method ⟨word, modifiers, typeParams, ty, params, body, source⟩
    else tape.textual .unknown none source

/-- The method or field that starts at the place `i`, after its modifiers and type parameters. -/
def declarationNode (i last : Nat) (typeParams : Option Text) (modifiers : Modifiers)
    (position : Nat) (source : Excerpt) : Run Node := do
  match ← tape.splitMember (last + 1) 0 i with
  | none => tape.textual .unknown none source
  | some (.method, paren) => tape.methodNode i paren last typeParams modifiers source
  | some (.field, stop) =>
      match ← tape.field i stop (last + 1) modifiers position source with
      | some decl => return .field decl
      | none => tape.textual .unknown none source

def memberNode (className : Text) (position first last : Nat) (source : Excerpt) : Run Node := do
  let (modifiers, i) ← tape.modifiers (last + 1) first
  if last < i then tape.textual .unknown none source
  else if tape.isPunct i '{' then do
    let body ← tape.body i last
    return .initializer ⟨modifiers.has .static, body, source⟩
  else do
    let (typeParams, i) ← tape.typeParams (last + 1) i
    if tape.isNamed i className && tape.isPunct (i + 1) '(' then
      tape.constructorNode className i last typeParams modifiers source
    else tape.declarationNode i last typeParams modifiers position source

end Tape

theorem Stretch.suffix {α : Type} {all part right : List α} {i j : Nat}
    (stretch : Stretch all i part j)
    (suffix : right <:+ part) : Stretch all (j - right.length) right j := by
  obtain ⟨left, rfl⟩ := suffix
  have size := stretch.length
  rw [List.length_append] at size
  rw [show j - right.length = i + left.length by omega]
  exact stretch.append.2

theorem Stretch.last_of_piece {all : List CodeToken} {piece : Piece} {i j : Nat}
    (whole : Stretch all i piece.tokens j) : 0 < j ∧ all[j - 1]? = some piece.last := by
  refine ⟨Nat.zero_lt_of_lt (whole.lt_of_ne_nil piece.tokens_ne_nil), ?_⟩
  rw [← piece.dropLast_append_last] at whole
  exact whole.last

namespace Tape.Holds

variable {tape : Tape} {all part rest : List CodeToken} {first last : CodeToken} {piece : Piece}
  {i j k : Nat} (holds : tape.Holds all)
include holds

theorem textual_eq (guarded : Guarded all i part j) (kind : TextualKind) (source : Excerpt) :
    tape.textual kind (some i) source =
      .ok (Code.textual kind (Code.leadingName? part) source) := by
  rw [Tape.textual, holds.isIdent_head guarded, Code.leadingName?]
  cases part with
  | nil => rfl
  | cons first rest =>
      rw [holds.text_eq guarded.stretch.head]
      cases isName : first.isIdent <;> simp [isName, Option.filter]

/-- The first brace is where the tokens before it stop. -/
theorem findBrace_eq (stretch : Stretch all k part j) : tape.findBrace j k =
    match part.dropWhile fun token => !token.isPunct '{' with
    | [] => none
    | block => some (j - block.length) := by
  induction part generalizing k with
  | nil =>
      rw [Tape.findBrace, dif_neg (by simp [stretch.eq_of_nil])]
      rfl
  | cons first rest ih =>
      have size := stretch.length
      rw [Tape.findBrace, dif_pos stretch.lt, holds.isPunct_eq stretch.head, ih stretch.tail,
        List.dropWhile_cons]
      cases first.isPunct '{' with
      | false => rfl
      | true =>
          simp only [if_true, Bool.not_true, Bool.false_eq_true, if_false]
          congr 1
          omega

theorem blockStart_eq (stretch : Stretch all k part j) (isLast : all[j - 1]? = some last)
    (positive : 0 < j) :
    tape.blockStart (j - 1) k = (Code.block? last part).map fun block => j - block.length := by
  rw [Tape.blockStart, Nat.sub_add_cancel positive, holds.findBrace_eq stretch, Code.block?,
    holds.isPunct_eq isLast]
  cases part.dropWhile fun token => !token.isPunct '{' with
  | nil => rfl
  | cons opening rest => cases last.isPunct '}' <;> simp

theorem body_of_block? {block : List CodeToken} (whole : Stretch all i piece.tokens j)
    (found : Code.block? piece.last part = some block) (inside : part <:+ piece.tokens) :
    tape.body (j - block.length) (j - 1) = lift (Code.body block) := by
  obtain ⟨suffix, braced⟩ := Code.braced_of_block? found inside
  exact holds.body_eq (whole.suffix suffix) braced

theorem constructorNode_eq {name paren : CodeToken} {after : List CodeToken}
    {typeParams : Option Text}
    {modifiers : Modifiers} {source : Excerpt} (whole : Stretch all i piece.tokens j)
    (guarded : Guarded all k (name :: paren :: after) j)
    (inside : name :: paren :: after <:+ piece.tokens) (ident : name.isIdent = true)
    (isParen : paren.isPunct '(' = true) :
    tape.constructorNode name.text k (j - 1) typeParams modifiers source =
      lift (Code.constructorNode name paren after piece.last typeParams modifiers source) := by
  obtain ⟨positive, isLast⟩ := whole.last_of_piece
  rw [Tape.constructorNode, Code.constructorNode, Nat.sub_add_cancel positive]
  obtain ⟨error, read, found⟩ | ⟨enclosed, closing, read, found, params, closes, -, behind⟩ :=
    holds.enclosed_cases guarded.stretch.tail isParen
  · rw [read, found]
    rfl
  · have rest : enclosed.rest <:+ piece.tokens :=
      (Code.suffix_of_close read).trans
        (((List.suffix_cons _ _).trans (List.suffix_cons _ _)).trans inside)
    rw [read, found, ok_bind,
      holds.params_eq (fun next there => ⟨')', by decide, closes next there⟩) params,
      holds.blockStart_eq behind isLast positive]
    change _ = lift (Code.params enclosed.inside >>= _)
    cases Code.params enclosed.inside with
    | error error => rfl
    | ok params =>
        simp only [lift_ok, ok_bind]
        dsimp only [bind, Except.bind]
        cases isBlock : Code.block? piece.last enclosed.rest with
        | none =>
            have named : Code.leadingName? (name :: paren :: after) = some name.text := by
              simp [Code.leadingName?, Option.filter, ident]
            simp only [Option.map_none]
            rw [holds.textual_eq guarded, named]
            rfl
        | some block =>
            simp only [Option.map_some]
            rw [holds.body_of_block? whole isBlock rest]
            cases Code.body block <;> rfl

theorem methodBody_eq (whole : Stretch all i piece.tokens j) (behind : Stretch all k part j)
    (inside : part <:+ piece.tokens) : tape.methodBody (j - 1) k =
      lift (match Code.block? piece.last part with
        | none => .ok none
        | some block => (Code.body block).map some) := by
  obtain ⟨positive, isLast⟩ := whole.last_of_piece
  rw [Tape.methodBody, holds.blockStart_eq behind isLast positive]
  cases isBlock : Code.block? piece.last part with
  | none => rfl
  | some block =>
      simp only [Option.map_some]
      rw [holds.body_of_block? whole isBlock inside]
      cases Code.body block <;> rfl

theorem methodNode_eq {split : Code.MemberSplit} {typeParams : Option Text} {modifiers : Modifiers}
    {source : Excerpt} (whole : Stretch all i piece.tokens j)
    (stretch : Stretch all k (split.before ++ split.stop :: split.after) j)
    (inside : split.after <:+ piece.tokens) (isParen : split.stop.isPunct '(' = true) :
    tape.methodNode k (k + split.before.length) (j - 1) typeParams modifiers source =
      lift (Code.methodNode split piece.last typeParams modifiers source) := by
  obtain ⟨positive, -⟩ := whole.last_of_piece
  have before := stretch.append.1
  rw [Tape.methodNode, Code.methodNode, Nat.sub_add_cancel positive]
  by_cases nothing : split.before = []
  · rw [nothing, if_pos (by simp)]
    rfl
  · have size := List.length_pos_iff.mpr nothing
    rw [← Nat.sub_add_cancel (show 1 ≤ k + split.before.length by omega)] at before
    obtain ⟨⟨name, single⟩, place⟩ | ⟨name, final, rest, several, after, ident, word, ty⟩ :=
      holds.named_cases before nothing
    · rw [single, if_pos (by omega)]
      rfl
    · rw [several, if_neg (by omega), sub_of_le (by omega), ok_bind, ident, word,
        sub_of_le (show 2 ≤ k + split.before.length by omega),
        show k + split.before.length - 2 = k + split.before.length - 1 - 1 by omega]
      dsimp only
      cases name.isIdent with
      | false => rfl
      | true =>
          rw [if_pos rfl, if_pos rfl]
          obtain ⟨error, read, found⟩
            | ⟨enclosed, closing, read, found, params, closes, -, behind⟩ :=
            holds.enclosed_cases stretch.append.2 isParen
          · rw [read, found]
            rfl
          · have rest := (Code.suffix_of_close read).trans inside
            rw [read, found, ok_bind,
              holds.params_eq (fun next there => ⟨')', by decide, closes next there⟩) params,
              holds.methodBody_eq whole behind rest]
            change _ = lift (Code.params enclosed.inside >>= _)
            cases Code.params enclosed.inside with
            | error error => rfl
            | ok params =>
                simp only [lift_ok, ok_bind, ty]
                cases Code.block? piece.last enclosed.rest with
                | none => rfl
                | some block =>
                    change (lift ((Code.body block).map some) >>= _) =
                      lift ((Code.body block).map some >>= _)
                    cases Code.body block <;> rfl

/-- The method or field of a member is that of its tokens. -/
theorem declarationNode_eq {typeParams : Option Text} {modifiers : Modifiers} {source : Excerpt}
    (position : Nat) (whole : Stretch all i piece.tokens j) (stretch : Stretch all k part j)
    (inside : part <:+ piece.tokens) :
    tape.declarationNode k (j - 1) typeParams modifiers position source =
      lift (Code.declarationNode position typeParams modifiers piece.last source part) := by
  obtain ⟨positive, -⟩ := whole.last_of_piece
  rw [Tape.declarationNode, Nat.sub_add_cancel positive, holds.splitMember_eq 0 stretch, ok_bind,
    Code.declarationNode]
  cases found : Code.splitMember? 0 part with
  | none => rfl
  | some split =>
      have joined := Code.append_of_splitMember? found
      have after : split.after <:+ part := by
        rw [← joined]
        exact (List.suffix_cons _ _).trans (List.suffix_append _ _)
      have form := stop_of_splitMember? (holds.marked_of_mem stretch) found
      rw [← joined] at stretch
      obtain ⟨isMethod, isParen⟩ | ⟨isField, stops⟩ := form
      · simp only [Option.map_some, isMethod]
        rw [holds.methodNode_eq whole stretch (after.trans inside) isParen]
      · simp only [Option.map_some, isField]
        rw [holds.field_eq modifiers position source stretch stops, ok_bind]
        cases Code.field? split modifiers position source <;> rfl

/-- A member after its modifiers and type parameters is a constructor of the class, or a method or a
field. -/
theorem namedNode_eq {typeParams : Option Text} {modifiers : Modifiers} {source : Excerpt}
    (className : Text) (position : Nat)
    (whole : Stretch all i piece.tokens j) (guarded : Guarded all k part j)
    (inside : part <:+ piece.tokens) :
    (if tape.isNamed k className && tape.isPunct (k + 1) '(' then
        tape.constructorNode className k (j - 1) typeParams modifiers source
      else tape.declarationNode k (j - 1) typeParams modifiers position source) =
      lift (Code.namedNode className position typeParams modifiers piece.last source part) := by
  rw [holds.isNamed_head guarded, holds.declarationNode_eq position whole guarded.stretch inside,
    Code.namedNode.eq_def]
  rcases part with _ | ⟨name, rest⟩
  · rfl
  · rw [List.head?_cons, Option.any_some]
    cases named : name.token.isWord className with
    | false =>
        have notNamed : (name.isIdent && name.text == className) = false := named
        cases rest with
        | nil => rfl
        | cons paren after => simp [notNamed]
    | true =>
        obtain ⟨isIdent, same⟩ := Bool.and_eq_true_iff.mp named
        have ident : name.isIdent = true := isIdent
        have isName : name.text = className := by simpa [CodeToken.text] using same
        rw [holds.isPunct_head (guarded.tail (stopsPiece_of_isIdent ident)) (by decide)]
        cases rest with
        | nil => rfl
        | cons paren after =>
            subst isName
            simp only [List.head?_cons, Option.any_some, Bool.true_and, ident, beq_self_eq_true]
            cases isParen : paren.isPunct '(' with
            | false => rfl
            | true => exact holds.constructorNode_eq whole guarded inside ident isParen

/-- A member that is not a type is that of its tokens. -/
theorem memberNode_eq (className : Text) (position : Nat) (source : Excerpt)
    (guarded : Guarded all i piece.tokens j) (completes : Code.Completes .fresh piece.tokens) :
    tape.memberNode className position i (j - 1) source =
      lift (match Code.modifiers piece.tokens with
        | .error error => .error error
        | .ok run => Code.memberNode className position run piece.last source) := by
  have whole := guarded.stretch
  obtain ⟨positive, -⟩ := whole.last_of_piece
  rw [Tape.memberNode, Nat.sub_add_cancel positive, holds.modifiers_eq guarded]
  cases read : Code.modifiers piece.tokens with
  | error error => rfl
  | ok run =>
      have behind := holds.guarded_of_modifiers guarded read
      have complete := completes.modifiers (holds.marked_of_mem whole) read
      obtain ⟨joined, -⟩ := Code.append_of_modifiers read
      have inside : run.rest <:+ piece.tokens := ⟨run.taken, joined⟩
      simp only [Except.map, lift_ok, ok_bind]
      generalize i + run.taken.length = k at behind
      obtain ⟨modifiers, taken, rest⟩ := run
      cases rest with
      | nil =>
          have same := behind.stretch.eq_of_nil
          rw [if_pos (by omega)]
          rfl
      | cons first rest =>
          have start := behind.stretch
          have after := start.lt
          rw [if_neg (by omega), holds.isPunct_eq start.head, Code.memberNode_cons]
          cases isBrace : first.isPunct '{' with
          | true =>
              simp only [if_true]
              rw [holds.body_eq start (complete.braced isBrace)]
              cases Code.body (first :: rest) <;> rfl
          | false =>
              simp only [Bool.false_eq_true, if_false]
              obtain ⟨error, params, found⟩
                | ⟨typeParams, taken, code, split, params, found, named⟩ :=
                holds.typeParams_eq behind
              · rw [params, found]
                rfl
              · have suffix : code <:+ piece.tokens := (split ▸ List.suffix_append _ _).trans inside
                rw [params, found, ok_bind]
                exact holds.namedNode_eq className position whole named suffix

end Tape.Holds

end JavaRecords.Indexed
