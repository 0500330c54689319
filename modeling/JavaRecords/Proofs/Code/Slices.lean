import JavaRecords.Proofs.Code.Relexed
import JavaRecords.Proofs.Token.Lossless

set_option autoImplicit false

namespace JavaRecords

namespace Token

/-- A token stands in a slice that starts at byte `base` as another one does in the source. -/
structure Lowered (base : Nat) (token other : Token) : Prop where
  kind : other.kind = token.kind
  text : other.text = token.text
  start : other.start + base = token.start
  stop : other.stop + base = token.stop

theorem forall₂_lowered {base : Nat} {tokens others : List Token}
    (moved : others.map (slide base) = tokens.map (slide 0)) :
    List.Forall₂ (Lowered base) tokens others := by
  rw [← List.forall₂_eq_eq_eq, List.forall₂_map_left_iff, List.forall₂_map_right_iff] at moved
  refine moved.flip.imp fun token other same => ?_
  simp only [slide, mk.injEq] at same
  obtain ⟨kind, -, text, start⟩ := same
  refine ⟨kind, text, start, ?_⟩
  rw [stop, stop, text]
  omega

/-- Tokens are read one after the other without blank text in front of the first, too. -/
theorem Chain.unspaced {first : Token} {rest : List Token} {tail : Text}
    (chain : Chain (first :: rest) tail) : Chain ({ first with space := [] } :: rest) tail :=
  ⟨fun _ listed => absurd listed List.not_mem_nil, chain.2⟩

end Token

/-- The tokens of a text are read one after the other, and it is what they spell with blank text
behind them. -/
theorem exists_chain_of_lex {source : Text} {tokens : List Token}
    (lexed : lex source = .ok tokens) :
    ∃ tail, Token.Chain tokens tail ∧ Token.Placed 0 tokens ∧
      source = Token.spell tokens ++ tail := by
  obtain ⟨closed, rfl⟩ := lex_eq_ok_iff.mp lexed
  obtain ⟨chain, _, placed⟩ := chain_of_lexFrom 0 source closed
  exact ⟨_, chain, placed, (spell_lexFrom 0 source closed).symm⟩

/-- The text from one token to another is read as the tokens between them. -/
theorem exists_lex_slice {source : Text} {tokens before rest after : List Token}
    {first last : Token}
    (lexed : lex source = .ok tokens) (split : tokens = before ++ (first :: rest ++ after))
    (isLast : (first :: rest).getLast? = some last) :
    ∃ part others, source.slice? first.start last.stop = some part ∧ lex part = .ok others ∧
      List.Forall₂ (Token.Lowered first.start) (first :: rest) others := by
  obtain ⟨tail, chain, placed, rfl⟩ := exists_chain_of_lex lexed
  subst split
  let run := { first with space := [] } :: rest
  -- the slice is what the tokens spell without the blank text in front of the first
  have start : first.start = Text.byteSize (Token.spell before ++ first.space) := by
    rw [Token.start_of_placed placed, Nat.zero_add]
  have stop : last.stop = first.start + Text.byteSize (Token.spell run) := by
    have here := (Token.placed_append.mp (Token.placed_append.mp placed).2).1
    rw [Token.stop_of_placed here isLast, start]
    simp only [run, Token.spell_cons, Text.byteSize_append, Text.byteSize_nil]
    omega
  have sliced := Text.slice?_append (Token.spell before ++ first.space) (Token.spell run)
    (Token.spell after ++ tail)
  rw [← start, ← stop] at sliced
  have own : Token.Chain run [] := by
    have inside := (Token.chain_append.mp (Token.chain_append.mp chain).2).1
    have unspaced : Token.Chain run ([] ++ (Token.spell after ++ tail)) := inside.unspaced
    exact Code.chain_cut unspaced
  have read := lexFrom_of_chain own Text.blank_nil 0
  rw [List.append_nil] at read
  refine ⟨Token.spell run, Token.restart 0 run, by simpa [run] using sliced, ?_, ?_⟩
  · rw [lex, lexAll, read]
  · apply Token.forall₂_lowered
    have here : Token.Placed first.start run := by
      obtain ⟨_, behind⟩ := Token.placed_cons.mp (Token.placed_append.mp placed).2
      exact Token.placed_cons.mpr ⟨rfl, (Token.placed_append.mp behind).1⟩
    exact Token.map_slide_restart here (Nat.add_comm _ _)

namespace Code

theorem getLast?_bare {part : List CodeToken} {last : CodeToken}
    (ends : part.getLast? = some last) : (bare part).getLast? = some last.token := by
  obtain ⟨front, rfl⟩ := List.getLast?_eq_some_iff.mp ends
  cases front with
  | nil => rfl
  | cons first rest =>
      rw [bare_append (List.cons_ne_nil _ _), flat_cons, flat_nil, ← List.append_assoc,
        List.getLast?_concat]

theorem slice?_text {source blank : Text} {tokens : List Token} (placed : Token.Placed 0 tokens)
    (spelled : source = Token.spell tokens ++ blank) {part : List CodeToken}
    (within : part <:+: (ofTokens tokens).tokens) {first last : CodeToken}
    (starts : part.head? = some first) (ends : part.getLast? = some last) :
    Text.slice? source first.start last.stop = some (text part) := by
  obtain ⟨rest, rfl⟩ := List.head?_eq_some_iff.mp starts
  obtain ⟨front, behind, whole⟩ := exists_tokens_around within
  rw [whole] at placed
  obtain ⟨placedRun, _⟩ := Token.placed_append.mp (Token.placed_append.mp placed).2
  have start := (Token.placed_cons.mp placedRun).1
  have stop := Token.stop_of_placed placedRun (getLast?_bare ends)
  rw [spell_bare, spell_run, Text.byteSize_append] at stop
  have cut : source = Token.spell front ++ first.token.space ++ text (first :: rest) ++
      (Token.spell behind ++ blank) := by
    rw [spelled, whole, Token.spell_append _ (bare _ ++ _), Token.spell_append (bare _),
      spell_bare, spell_run]
    simp only [List.append_assoc]
  have slice := Text.slice?_append (Token.spell front ++ first.token.space) (text (first :: rest))
    (Token.spell behind ++ blank)
  rw [← cut, Text.byteSize_append] at slice
  change Text.slice? source first.token.start last.token.stop = _
  rw [start, stop, ← slice]
  congr 1 <;> omega

theorem codeBetween_run {tokens : List Token} {size : Nat}
    (located : Token.Located tokens 0 0 size tokens) {part : List CodeToken}
    (within : part <:+: (ofTokens tokens).tokens) {first last : CodeToken}
    (starts : part.head? = some first) (ends : part.getLast? = some last) :
    Token.codeBetween tokens first.start last.stop = part.map CodeToken.token := by
  obtain ⟨rest, rfl⟩ := List.head?_eq_some_iff.mp starts
  obtain ⟨front, behind, whole⟩ := exists_tokens_around within
  have own : Token.Located tokens 0 0 size (front ++ (first.token :: flat rest ++ behind)) := by
    change Token.Located tokens 0 0 size (front ++ (bare (first :: rest) ++ behind))
    rw [← whole]
    exact located
  obtain ⟨_, here, _⟩ := own.cut
  have stop : last.stop = _ := Token.stop_of_placed here.placed (getLast?_bare ends)
  rw [Token.codeBetween, stop, show first.start = first.token.start from rfl, here.tokens]
  exact filter_bare (Bound.of_infix (bound_ofTokens tokens).1 within)

end Code

end JavaRecords
