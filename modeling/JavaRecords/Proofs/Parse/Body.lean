import JavaRecords.Conversion.ClassView
import JavaRecords.Proofs.Code.Clean
import JavaRecords.Proofs.Parse.Member
import JavaRecords.Proofs.Parse.Scan

set_option autoImplicit false

namespace JavaRecords

namespace Code

/-- A declaration that nothing keeps open ends with the brace that closes its block. -/
theorem Completes.closing {parens depth opened : Nat} {code : List CodeToken}
    (completes : Completes ⟨parens, false, depth + 1, opened⟩ code) :
    ∃ inside closing, code = inside ++ [closing] ∧ closing.isPunct '}' = true := by
  induction code generalizing depth with
  | nil =>
      cases completes with
      | out outside => cases outside
  | cons first rest ih =>
      have deeper : ∀ depth, Completes ⟨parens, false, depth + 1, opened⟩ rest →
          ∃ inside closing, first :: rest = inside ++ [closing] ∧ closing.isPunct '}' = true := by
        intro depth others
        obtain ⟨inside, closing, split, isClosing⟩ := ih others
        exact ⟨first :: inside, closing, by rw [split, List.cons_append], isClosing⟩
      by_cases isOpening : first.isPunct '{' = true
      · exact deeper (depth + 1) (completes.next (by simp [PieceScan.step, isOpening]))
      · by_cases isClosing : first.isPunct '}' = true
        · cases completes with
          | last _ => exact ⟨[], first, rfl, isClosing⟩
          | step goes others =>
              cases depth with
              | zero => simp [PieceScan.step, isOpening, isClosing, declarationRule] at goes
              | succ depth =>
                  simp only [PieceScan.step, isOpening, isClosing] at goes
                  cases goes
                  exact deeper depth others
        · exact deeper depth (completes.next (by simp [PieceScan.step, isOpening, isClosing]))

/-- A run of tokens from an opening to a closing brace. -/
def Braced (block : List CodeToken) : Prop :=
  ∃ opening inside closing, block = opening :: (inside ++ [closing]) ∧
    opening.isPunct '{' = true ∧ closing.isPunct '}' = true

theorem Completes.braced {first : CodeToken} {rest : List CodeToken}
    (completes : Completes .fresh (first :: rest)) (isOpening : first.isPunct '{' = true) :
    Braced (first :: rest) := by
  obtain ⟨inside, closing, split, isClosing⟩ :=
    (completes.next (PieceScan.step_fresh_of_brace isOpening)).closing
  exact ⟨first, inside, closing, by rw [split], isOpening, isClosing⟩

theorem block?_eq_some {last : CodeToken} {code block : List CodeToken}
    (found : block? last code = some block) :
    block <:+ code ∧ last.isPunct '}' = true ∧ ∃ opening rest, block = opening :: rest ∧
      opening.isPunct '{' = true := by
  unfold block? at found
  cases dropped : code.dropWhile (fun token => !token.isPunct '{') with
  | nil =>
      simp only [dropped] at found
      cases found
  | cons opening rest =>
      simp only [dropped] at found
      split at found
      · rename_i isClosing
        cases found
        have head := List.head?_dropWhile_not (fun token => !token.isPunct '{') code
        rw [dropped] at head
        refine ⟨?_, isClosing, opening, rest, rfl, by simpa using head⟩
        rw [← dropped]
        exact List.dropWhile_suffix _
      · cases found

theorem braced_of_block? {piece : Piece} {code block : List CodeToken}
    (found : block? piece.last code = some block) (inside : code <:+ piece.tokens) :
    block <:+ piece.tokens ∧ Braced block := by
  obtain ⟨within, isClosing, opening, others, rfl, isOpening⟩ := block?_eq_some found
  have whole := within.trans inside
  have final : (opening :: others).getLast? = some piece.last := by
    obtain ⟨before, joined⟩ := whole
    have isLast := piece.getLast?_tokens
    rw [← joined, List.getLast?_append_of_ne_nil _ (List.cons_ne_nil _ _)] at isLast
    exact isLast
  refine ⟨whole, ?_⟩
  rcases List.eq_nil_or_concat others with rfl | ⟨front, closing, rfl⟩
  · -- one token is no opening and closing brace at once
    have same : opening = piece.last := Option.some.inj final
    rw [← same, CodeToken.isPunct_of_isPunct isOpening] at isClosing
    exact absurd isClosing (by decide)
  · rw [List.concat_eq_append] at final ⊢
    rw [← List.cons_append, List.getLast?_concat] at final
    exact ⟨opening, front, closing, rfl, isOpening, by rw [Option.some.inj final]; exact isClosing⟩

theorem BodyOf.braced {piece : Piece} {code : List CodeToken} {found : Body}
    (read : BodyOf piece.last code found) (inside : code <:+ piece.tokens) :
    ∃ block, block <:+ piece.tokens ∧ Braced block ∧ body block = .ok found := by
  obtain ⟨rest, block, suffix, isBlock, isBody⟩ := read
  obtain ⟨whole, braced⟩ := braced_of_block? isBlock (suffix.trans inside)
  exact ⟨block, whole, braced, isBody⟩

theorem text_of_body {block : List CodeToken} {found : Body} (read : body block = .ok found) :
    found.text = text block := by
  unfold body at read
  dsimp only at read
  split at read
  · cases read
  · cases read
    rfl

theorem body_of_memberShape {className : Text} {position : Nat} {piece : Piece} {source : Excerpt}
    {node : Node} (shaped : memberShape className position piece source = .ok (.node node))
    (completes : Completes .fresh piece.tokens) (marked : ∀ token ∈ piece.tokens, token.Marked)
    {label : Text} {found : Body} (labelled : node.labelledBody? = some (label, found)) :
    ∃ block, block <:+ piece.tokens ∧ Braced block ∧ body block = .ok found := by
  rcases memberNode_of_memberShape shaped with ⟨kind, name, rfl⟩ | ⟨run, isRun, read⟩
  · cases labelled
  · obtain ⟨joined, _⟩ := append_of_modifiers isRun
    have inside : run.rest <:+ piece.tokens := ⟨run.taken, joined⟩
    rcases memberNode_cases read with
      rfl | ⟨first, rest, block, isRest, isBrace, isBody, rfl⟩ | ⟨typeParams, code, params, parts⟩
    · cases labelled
    · cases labelled
      have scanned := completes.modifiers marked isRun
      rw [isRest] at scanned
      refine ⟨run.rest, inside, ?_, isBody⟩
      rw [isRest]
      exact scanned.braced isBrace
    · obtain ⟨taken, joinedParams, _⟩ := append_of_typeParams? params
      have code_inside : code <:+ piece.tokens := List.IsSuffix.trans ⟨taken, joinedParams⟩ inside
      have done : ∀ rest, rest <:+ code → BodyOf piece.last rest found →
          ∃ block, block <:+ piece.tokens ∧ Braced block ∧ body block = .ok found :=
        fun _ suffix read => read.braced (suffix.trans code_inside)
      rcases parts with ⟨name, paren, after, rfl, made⟩ | ⟨split, isSplit, made | ⟨decl, _, rfl⟩⟩
      · rcases constructorNode_cases made with ⟨kind, label, rfl⟩ | ⟨decl, rfl, _, isBody⟩
        · cases labelled
        · cases labelled
          exact done after ((List.suffix_cons _ _).trans (List.suffix_cons _ _)) isBody
      · rcases methodNode_cases made with ⟨kind, label, rfl⟩ | ⟨decl, rfl, _, isBody⟩
        · cases labelled
        · obtain ⟨body, isSome, same⟩ := Option.map_eq_some_iff.mp labelled
          have body_eq : body = found := congrArg Prod.snd same
          rw [body_eq] at isSome
          refine done split.after ?_ (isBody found isSome)
          rw [← append_of_splitMember? isSplit]
          exact (List.suffix_cons _ _).trans (List.suffix_append _ _)
      · cases labelled

/-- What is parsed as a member can be one. -/
theorem isMember_of_memberShape {className : Text} {position : Nat} {piece : Piece}
    {source : Excerpt}
    {node : Node} (shaped : memberShape className position piece source = .ok (.node node)) :
    node.isMember = true := by
  rcases memberNode_of_memberShape shaped with ⟨kind, name, rfl⟩ | ⟨run, _, read⟩
  · rfl
  · rcases memberNode_cases read with
      rfl | ⟨_, _, block, _, _, _, rfl⟩ | ⟨typeParams, code, _, parts⟩
    · rfl
    · rfl
    · rcases parts with ⟨name, paren, after, _, made⟩ | ⟨split, _, made | ⟨decl, _, rfl⟩⟩
      · rcases constructorNode_cases made with ⟨kind, label, rfl⟩ | ⟨decl, rfl, _⟩ <;> rfl
      · rcases methodNode_cases made with ⟨kind, label, rfl⟩ | ⟨decl, rfl, _⟩ <;> rfl
      · rfl

/-- A field has the place it was parsed at. -/
theorem position_of_memberShape {className : Text} {position : Nat} {piece : Piece}
    {source : Excerpt} {decl : FieldDecl}
    (shaped : memberShape className position piece source = .ok (.node (.field decl))) :
    decl.position = position := by
  obtain ⟨run, _, _, split, _, _, _, field⟩ := field_of_memberShape shaped
  unfold field? at field
  split at field
  · split at field
    · cases field
      rfl
    · cases field
  · cases field

end Code

/-- A text from an opening to a closing brace all of whose tokens are closed. -/
structure Text.Braced (text : Text) : Prop where
  opening : text.head? = some '{'
  closing : text.getLast? = some '}'
  lexes : ∃ tokens, lex text = .ok tokens

namespace Code

/-- A run of tokens in braces is read by itself as in its source. -/
theorem Braced.text {block : List CodeToken} {tail : Text} (braced : Braced block)
    (chain : Token.Chain (flat block) tail) (bound : Bound block) : (Code.text block).Braced := by
  have whole := chain_run_of_loose (chain_run chain) bound Token.loose_nil
  have read := lexFrom_of_chain whole Text.blank_nil 0
  rw [List.append_nil, spell_run] at read
  obtain ⟨opening, inside, closing, rfl, isOpening, isClosing⟩ := braced
  have first : opening.text = ['{'] := (ClassLayout.isPunct_text isOpening).2
  have final : closing.text = ['}'] := (ClassLayout.isPunct_text isClosing).2
  refine ⟨?_, ?_, Token.restart 0 (run (opening :: (inside ++ [closing]))), ?_⟩
  · rw [text_cons, first]
    rfl
  · rw [text_cons, List.flatMap_append, List.flatMap_cons, List.flatMap_nil, final, List.append_nil,
      ← List.append_assoc, ← List.append_assoc, List.getLast?_concat]
  · simp only [lex, lexAll, read]

end Code

theorem Text.Braced.trim {text : Text} (braced : text.Braced) : Text.trim text = text := by
  obtain ⟨front, split⟩ := List.getLast?_eq_some_iff.mp braced.closing
  have start : Text.trimStart text = text := by
    cases text with
    | nil => rfl
    | cons c rest =>
        have isOpening : c = '{' := Option.some.inj braced.opening
        rw [isOpening]
        rfl
  have isStop : Text.isSpace '}' = false := by decide
  rw [Text.trim, start, Text.trimEnd, split, List.reverse_append]
  simp [isStop]

theorem Body.isBlock_of_braced {body : Body} (braced : body.text.Braced) : body.isBlock = true := by
  obtain ⟨tokens, lexed⟩ := braced.lexes
  simp [isBlock, braced.trim, lexed, braced.opening, braced.closing, Except.isOk, Except.toBool]

end JavaRecords
