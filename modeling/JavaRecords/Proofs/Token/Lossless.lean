import JavaRecords.Proofs.Token.Chain

set_option autoImplicit false

namespace JavaRecords

namespace Token

/-- Where the last of some tokens stops, or the start of the text if there is none. -/
def lastStop (tokens : List Token) : Nat := (tokens.getLast?.map stop).getD 0

theorem lastStop_of_placed {tokens : List Token} (placed : Placed 0 tokens) :
    lastStop tokens = Text.byteSize (spell tokens) := by
  rw [lastStop]
  cases isLast : tokens.getLast? with
  | none =>
      rw [List.getLast?_eq_none_iff.mp isLast]
      rfl
  | some last =>
      rw [Option.map_some, Option.getD_some, stop_of_placed placed isLast, Nat.zero_add]

/-- A token and the blank text before it stand in the text where the token says. -/
theorem slices_of_placed {before after : List Token} {token : Token} {more : Text}
    (placed : Placed 0 (before ++ token :: after)) :
    let text := spell (before ++ token :: after) ++ more
    text.slice? (lastStop before) token.start = some token.space ∧
      text.slice? token.start token.stop = some token.text := by
  intro text
  rw [lastStop_of_placed (placed_append.mp placed).1, stop, start_of_placed placed, Nat.zero_add]
  constructor
  · have cut := Text.slice?_append (spell before) token.space (token.text ++ (spell after ++ more))
    simpa [text] using cut
  · have cut := Text.slice?_append (spell before ++ token.space) token.text (spell after ++ more)
    simpa [text] using cut

theorem form_of_enclosed {form own : Unterminated} {kind : TokenKind} {opener : Text}
    {closing : Option (Text × Text)} (failed : enclosed own kind opener closing = .error form) :
    own = form := by
  unfold enclosed at failed
  split at failed <;> cases failed
  rfl

/-- A token that is never closed starts with what opens it. -/
theorem opener_of_readToken {c : Char} {rest : Text} {form : Unterminated}
    (failed : readToken c rest = .error form) : form.opener <+: c :: rest := by
  unfold readToken at failed
  split at failed
  · cases failed
  · cases form_of_enclosed failed
    exact ⟨_, rfl⟩
  · cases form_of_enclosed failed
    exact ⟨_, rfl⟩
  · cases form_of_enclosed failed
    exact ⟨_, rfl⟩
  · cases form_of_enclosed failed
    exact ⟨_, rfl⟩
  · split at failed
    · cases failed
    · split at failed <;> cases failed

end Token

namespace Lexed

/-- What is left of a text behind the tokens and the blank text that were read from byte `offset`
on: nothing, or a token that is never closed. -/
inductive Leaves (lexed : Lexed) (offset : Nat) : Text → Prop
  | nothing (closed : lexed.failure = none) : Leaves lexed offset []
  | unclosed {c : Char} {rest : Text} {form : Unterminated} (visible : Text.isSpace c = false)
      (failed : Token.readToken c rest = .error form)
      (isFailure : lexed.failure =
        some ⟨form, offset + Text.byteSize (Token.spell lexed.tokens ++ lexed.tail)⟩) :
      Leaves lexed offset (c :: rest)

/-- A text is what was read of it from byte `offset` on and the text `rest`. -/
structure Splits (lexed : Lexed) (offset : Nat) (text rest : Text) : Prop where
  joined : Token.spell lexed.tokens ++ (lexed.tail ++ rest) = text
  blank : lexed.tail.Blank
  chain : Token.Chain lexed.tokens (lexed.tail ++ rest)
  placed : Token.Placed offset lexed.tokens
  leaves : lexed.Leaves offset rest

theorem Splits.cons {lexed : Lexed} {token : Token} {offset : Nat} {text rest : Text}
    (splits : lexed.Splits token.stop text rest) (blank : token.space.Blank)
    (reads : Token.ReadsAs token.kind token.text text)
    (starts : token.start = offset + Text.byteSize token.space) :
    Splits { lexed with tokens := token :: lexed.tokens } offset
      (token.space ++ (token.text ++ text)) rest := by
  obtain ⟨joined, tail, chain, placed, leaves⟩ := splits
  refine ⟨?_, tail, ⟨blank, by rwa [joined], chain⟩, Token.placed_cons.mpr ⟨starts, placed⟩, ?_⟩
  · simp only [Token.spell_cons, List.append_assoc, joined]
  · cases leaves with
    | nothing closed => exact .nothing closed
    | unclosed visible failed isFailure =>
        refine .unclosed visible failed ?_
        simp only [isFailure, Token.spell_cons, Text.byteSize_append, Token.stop, starts,
          Nat.add_assoc]

theorem exists_splits (offset : Nat) (text : Text) :
    ∃ rest, (lexFrom offset text).Splits offset text rest := by
  fun_induction lexFrom offset text with
  | case1 offset text space split =>
      have joined := List.takeWhile_append_dropWhile (p := Text.isSpace) (l := text)
      rw [split] at joined
      exact ⟨[], joined, fun c => List.mem_takeWhile_imp, trivial, rfl, .nothing rfl⟩
  | case2 offset text space c rest split start form failed =>
      have joined := List.takeWhile_append_dropWhile (p := Text.isSpace) (l := text)
      have visible := List.head?_dropWhile_not Text.isSpace text
      rw [split] at joined visible
      exact ⟨c :: rest, joined, fun c => List.mem_takeWhile_imp, trivial, rfl,
        .unclosed (by simpa using visible) failed rfl⟩
  | case3 offset text space c rest split start kind word remaining read token lexed ih =>
      obtain ⟨left, splits⟩ := ih
      have joined := List.takeWhile_append_dropWhile (p := Text.isSpace) (l := text)
      have visible := List.head?_dropWhile_not Text.isSpace text
      rw [split] at joined visible
      obtain ⟨spelled, nonempty⟩ := Token.readToken_splits c rest kind word remaining read
      have reads : Token.ReadsAs token.kind token.text remaining := by
        obtain ⟨d, tail, rfl⟩ := List.exists_cons_of_ne_nil nonempty
        cases spelled
        exact ⟨c, tail, rfl, by simpa using visible, read⟩
      refine ⟨left, ?_⟩
      rw [← joined, ← spelled]
      exact splits.cons (fun c => List.mem_takeWhile_imp) reads rfl

/-- What is read of a text covers it. Byte offsets are cuts of the text, which are never inside a
character (`Text.slice?`). -/
structure Covers (lexed : Lexed) (text : Text) : Prop where
  nonempty : ∀ token ∈ lexed.tokens, token.start < token.stop
  cuts : ∀ token ∈ lexed.tokens, text.slice? token.start token.stop = some token.text
  ordered : lexed.tokens.Pairwise fun token later => token.stop ≤ later.start
  /-- The text before a token, back to the token before it, is blank. -/
  gaps : ∀ before token after, lexed.tokens = before ++ token :: after →
    text.slice? (Token.lastStop before) token.start = some token.space ∧ token.space.Blank
  /-- Without a failure, the text after the last token is blank, and nothing is lost. -/
  closed : lexed.failure = none →
    text.slice? (Token.lastStop lexed.tokens) (Text.byteSize text) = some lexed.tail ∧
      lexed.tail.Blank ∧ Token.spell lexed.tokens ++ lexed.tail = text
  /-- A failure is at the first character after the last token that is not blank, where the text
  starts with what opens the token that is never closed. -/
  failed : ∀ error, lexed.failure = some error →
    text.slice? (Token.lastStop lexed.tokens) error.offset = some lexed.tail ∧ lexed.tail.Blank ∧
      ∃ c rest, text.slice? error.offset (Text.byteSize text) = some (c :: rest) ∧
        Text.isSpace c = false ∧ error.form.opener <+: c :: rest

variable {lexed : Lexed} {text rest : Text}

theorem Splits.ordered {offset : Nat} (splits : lexed.Splits offset text rest) :
    lexed.tokens.Pairwise fun token later => token.stop ≤ later.start := by
  have placed := splits.placed
  clear splits
  generalize lexed.tokens = tokens at placed
  induction tokens generalizing offset with
  | nil => exact .nil
  | cons token later ih =>
      obtain ⟨_, behind⟩ := Token.placed_cons.mp placed
      refine .cons (fun other listed => ?_) (ih behind)
      obtain ⟨before, after, rfl⟩ := List.append_of_mem listed
      obtain ⟨start, _⟩ := Token.placed_cons.mp (Token.placed_append.mp behind).2
      omega

theorem Splits.covers (splits : lexed.Splits 0 text rest) : lexed.Covers text where
  nonempty token listed := by
    obtain ⟨before, after, split⟩ := List.append_of_mem listed
    have chain := splits.chain
    rw [split, Token.chain_append] at chain
    have positive := Text.byteSize_pos_of_ne_nil _ chain.2.2.1.ne_nil
    rw [Token.stop]
    omega
  cuts token listed := by
    obtain ⟨before, after, split⟩ := List.append_of_mem listed
    have placed := splits.placed
    rw [split] at placed
    rw [← splits.joined, split]
    exact (Token.slices_of_placed placed).2
  ordered := splits.ordered
  gaps before token after split := by
    obtain ⟨joined, _, chain, placed, _⟩ := splits
    rw [split] at joined chain placed
    rw [← joined]
    exact ⟨(Token.slices_of_placed placed).1, (Token.chain_append.mp chain).2.1⟩
  closed none := by
    obtain ⟨joined, blank, _, placed, leaves⟩ := splits
    cases leaves with
    | unclosed _ _ isFailure => cases none.symm.trans isFailure
    | nothing _ =>
        rw [List.append_nil] at joined
        have cut := Text.slice?_append (Token.spell lexed.tokens) lexed.tail []
        rw [List.append_nil, joined, ← Text.byteSize_append, joined] at cut
        rw [Token.lastStop_of_placed placed]
        exact ⟨cut, blank, joined⟩
  failed error some := by
    obtain ⟨joined, blank, _, placed, leaves⟩ := splits
    cases leaves with
    | nothing closed => cases closed.symm.trans some
    | @unclosed c rest form visible failed isFailure =>
        cases some.symm.trans isFailure
        rw [Token.lastStop_of_placed placed]
        have gap := Text.slice?_append (Token.spell lexed.tokens) lexed.tail (c :: rest)
        have left := Text.slice?_append (Token.spell lexed.tokens ++ lexed.tail) (c :: rest) []
        rw [List.append_assoc, joined] at gap
        rw [List.append_nil, List.append_assoc, joined, ← Text.byteSize_append, List.append_assoc,
          joined] at left
        rw [Nat.zero_add]
        refine ⟨?_, blank, c, rest, left, visible, Token.opener_of_readToken failed⟩
        rw [Text.byteSize_append]
        exact gap

/-- What a lexer yields for a text: the tokens, and then the failure. -/
def items (lexed : Lexed) : List (Except LexError Token) :=
  lexed.tokens.map .ok ++ lexed.failure.toList.map .error

end Lexed

/-- A lexer in front of what is left of a text. -/
structure Lexer where
  /-- The byte offset of `rest` in its source. -/
  offset : Nat
  rest : Text
  /-- Whether a token was found that is never closed. -/
  failed : Bool

namespace Lexer

def start (text : Text) : Lexer := ⟨0, text, false⟩

def next (lexer : Lexer) : Option (Except LexError Token) × Lexer :=
  if lexer.failed then (none, lexer)
  else
    let space := lexer.rest.takeWhile Text.isSpace
    let start := lexer.offset + Text.byteSize space
    match lexer.rest.dropWhile Text.isSpace with
    | [] => (none, ⟨start, [], false⟩)
    | c :: rest =>
        match Token.readToken c rest with
        | .error form => (some (.error ⟨form, start⟩), ⟨start, c :: rest, true⟩)
        | .ok (kind, word, remaining) =>
            let token : Token := ⟨kind, space, word, start⟩
            (some (.ok token), ⟨token.stop, remaining, false⟩)

/-- What a lexer yields after it was asked `index` times. -/
def item (lexer : Lexer) : Nat → Option (Except LexError Token)
  | 0 => lexer.next.1
  | index + 1 => lexer.next.2.item index

theorem item_of_failed {lexer : Lexer} (failed : lexer.failed = true) (index : Nat) :
    lexer.item index = none := by
  have next : lexer.next = (none, lexer) := by rw [Lexer.next, if_pos failed]
  induction index with
  | zero => rw [item, next]
  | succ index ih => rw [item, next, ih]

theorem item_of_blank (offset : Nat) {rest : Text} (blank : rest.dropWhile Text.isSpace = [])
    (index : Nat) : (⟨offset, rest, false⟩ : Lexer).item index = none := by
  induction index generalizing offset rest with
  | zero => simp [item, next, blank]
  | succ index ih =>
      rw [item]
      simp only [next, blank]
      exact ih _ rfl

/-- A lexer yields what is read of the text in front of it, and then nothing. -/
theorem item_eq (offset : Nat) (rest : Text) (index : Nat) :
    (⟨offset, rest, false⟩ : Lexer).item index = (lexFrom offset rest).items[index]? := by
  fun_induction lexFrom offset rest generalizing index with
  | case1 offset rest space split => exact item_of_blank offset split index
  | case2 offset rest space c after split start form failed =>
      have next : (⟨offset, rest, false⟩ : Lexer).next =
          (some (.error ⟨form, start⟩), ⟨start, c :: after, true⟩) := by
        simp [Lexer.next, split, failed, start, space]
      cases index with
      | zero => simp [item, next, Lexed.items]
      | succ index => simp [item, next, Lexed.items, item_of_failed]
  | case3 offset rest space c after split start kind word remaining read token lexed ih =>
      have next : (⟨offset, rest, false⟩ : Lexer).next =
          (some (.ok token), ⟨token.stop, remaining, false⟩) := by
        simp [Lexer.next, split, read, start, space, token]
      cases index with
      | zero => simp [item, next, Lexed.items]
      | succ index =>
          rw [item, next, ih]
          simp [Lexed.items, lexed]

end Lexer

/-- What is read of a text covers it: no text is lost but blank text, and a failure is where the
token starts that is never closed. A lexer yields the tokens and the failure in order, and
nothing after. -/
theorem covers_lexAll (text : Text) :
    (lexAll text).Covers text ∧ ∀ index, (Lexer.start text).item index =
      (lexAll text).items[index]? := by
  obtain ⟨rest, splits⟩ := Lexed.exists_splits 0 text
  exact ⟨splits.covers, Lexer.item_eq 0 text⟩

end JavaRecords
