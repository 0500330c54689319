import JavaRecords.Proofs.Code.Written
import JavaRecords.Proofs.Parse.Blocks

set_option autoImplicit false

namespace JavaRecords

namespace Token

/-- Tokens that start elsewhere are the same after they are moved. -/
theorem map_slide_restart {tokens : List Token} {base : Nat} (placed : Placed base tokens)
    {offset distance reverse : Nat} (same : offset + distance = base + reverse) :
    (restart offset tokens).map (slide distance) = tokens.map (slide reverse) := by
  induction tokens generalizing base offset with
  | nil => rfl
  | cons token rest ih =>
      obtain ⟨start, placedRest⟩ := placed_cons.mp placed
      rw [restart, List.map_cons, List.map_cons, ih placedRest (by rw [stop]; omega)]
      refine congrArg₂ List.cons ?_ rfl
      simp only [slide]
      congr 1
      omega

theorem filter_map_slide (tokens : List Token) (distance : Nat) :
    (tokens.map (slide distance)).filter (fun token => !token.isComment) =
      (tokens.filter fun token => !token.isComment).map (slide distance) :=
  List.filter_map

variable (distance : Nat)

@[simp] theorem isPunct_slide (token : Token) (c : Char) :
    (token.slide distance).isPunct c = token.isPunct c := rfl

@[simp] theorem isIdent_slide (token : Token) : (token.slide distance).isIdent = token.isIdent :=
  rfl

@[simp] theorem text_slide (token : Token) : (token.slide distance).text = token.text := rfl

@[simp] theorem spells_slide (word : Text) (tokens : List Token) :
    spells word (tokens.map (slide distance)) = spells word tokens := by
  induction word generalizing tokens with
  | nil => rfl
  | cons c word ih =>
      cases tokens with
      | nil => rfl
      | cons token rest =>
          have next : (rest.map (slide distance)).head?.any (token.slide distance).touches =
              rest.head?.any token.touches := by
            cases rest with
            | nil => rfl
            | cons other more => exact touches_slide distance token other
          rw [List.map_cons, spells, spells, ih, next]
          rfl

end Token

namespace Code

/-- The code of tokens has those that are no comments. -/
theorem map_token_ofTokens (tokens : List Token) :
    (ofTokens tokens).tokens.map CodeToken.token = tokens.filter fun token => !token.isComment := by
  obtain ⟨bound, tail⟩ := bound_ofTokens tokens
  have joined := congrArg (List.filter fun token => !token.isComment) (flat_ofTokens tokens)
  rw [List.filter_append, filter_flat bound, List.filter_eq_nil_iff.mpr, List.append_nil] at joined
  · exact joined
  · intro comment listed
    simp [tail comment listed]

theorem exists_tokens_around {tokens : List Token} {first : CodeToken} {rest : List CodeToken}
    (inside : first :: rest <:+: (ofTokens tokens).tokens) :
    ∃ before after, tokens = before ++ (bare (first :: rest) ++ after) := by
  obtain ⟨front, back, split⟩ := inside
  refine ⟨flat front ++ first.comments, flat back ++ (ofTokens tokens).tail, ?_⟩
  nth_rewrite 1 [← flat_ofTokens tokens]
  rw [← split]
  simp only [flat_append, flat_eq_comments_bare, List.append_assoc]

theorem placed_run {tokens : List Token} (placed : Token.Placed 0 tokens) {first : CodeToken}
    {rest : List CodeToken} (inside : first :: rest <:+: (ofTokens tokens).tokens) :
    Token.Placed first.start (run (first :: rest)) := by
  obtain ⟨before, after, whole⟩ := exists_tokens_around inside
  rw [whole] at placed
  obtain ⟨own, _⟩ := Token.placed_append.mp (Token.placed_append.mp placed).2
  exact Token.placed_cons.mpr ⟨rfl, (Token.placed_cons.mp own).2⟩

/-- The text of a run of a source is read as the tokens of the run. -/
theorem lex_text {tokens : List Token} {tail : Text} (chain : Token.Chain tokens tail)
    {code : List CodeToken} (inside : code <:+: (ofTokens tokens).tokens) :
    lex (text code) = .ok (Token.restart 0 (run code)) := by
  have bound := Bound.of_infix (bound_ofTokens tokens).1 inside
  rw [← flat_ofTokens tokens, Token.chain_append] at chain
  obtain ⟨after, chainRun⟩ := chain_of_infix chain.1 inside
  have whole := chain_run_of_loose (chain_run chainRun) bound Token.loose_nil
  have read := lexFrom_of_chain whole Text.blank_nil 0
  rw [List.append_nil, spell_run] at read
  rw [lex, lexAll, read]

/-- The text of a run of a source is read as the run, moved to where the text starts. -/
theorem exists_read_text {tokens : List Token} {tail : Text} (chain : Token.Chain tokens tail)
    (placed : Token.Placed 0 tokens) {first : CodeToken} {rest : List CodeToken}
    (inside : first :: rest <:+: (ofTokens tokens).tokens) :
    ∃ code, Code.read (text (first :: rest)) = .ok code ∧ Marks [] [] code.tokens ∧
      (code.tokens.map CodeToken.token).map (Token.slide first.start) =
        ((first :: rest).map CodeToken.token).map (Token.slide 0) := by
  have bound := Bound.of_infix (bound_ofTokens tokens).1 inside
  refine ⟨ofTokens (Token.restart 0 (run (first :: rest))), ?_, marks_ofTokens _, ?_⟩
  · rw [Code.read, lex_text chain inside]
    rfl
  · have moved := Token.map_slide_restart (placed_run placed inside)
      (show 0 + first.start = first.start + 0 from Nat.add_comm _ _)
    have bare : (run (first :: rest)).map (Token.slide 0) =
        (bare (first :: rest)).map (Token.slide 0) := rfl
    rw [map_token_ofTokens, ← Token.filter_map_slide, moved, bare, Token.filter_map_slide,
      filter_bare bound]

end Code

end JavaRecords
