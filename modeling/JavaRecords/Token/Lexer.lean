import JavaRecords.Token.Basic

set_option autoImplicit false

namespace JavaRecords

namespace Token

/-- A character that can start an identifier. -/
def isIdentStart (c : Char) : Bool := Text.isLetter c || c == '_' || c == '$'

/-- A character that can continue an identifier. -/
def isIdentPart (c : Char) : Bool := Text.isAlphanumeric c || c == '_' || c == '$'

/-- A character that can continue a number. -/
def isNumberPart (c : Char) : Bool := Text.isAsciiAlphanumeric c || c == '_' || c == '.'

/-- The characters up to and with the first star and slash, and the rest. -/
def closeComment : Text → Option (Text × Text)
  | '*' :: '/' :: rest => some (['*', '/'], rest)
  | c :: rest => (closeComment rest).map fun cut => (c :: cut.1, cut.2)
  | [] => none

/-- The characters up to and with the closing `quote`, and the rest. A backslash hides the character
after it, and a line feed that is not hidden leaves the literal open. -/
def closeQuote (quote : Char) : Text → Option (Text × Text)
  | [] => none
  | c :: rest =>
      if c = quote then some ([c], rest)
      else if c = '\\' then
        match rest with
        | [] => none
        | d :: rest => (closeQuote quote rest).map fun cut => (c :: d :: cut.1, cut.2)
      else if c = '\n' then none
      else (closeQuote quote rest).map fun cut => (c :: cut.1, cut.2)

/-- The characters up to and with the next three double quotes, and the rest. A backslash hides the
character after it. -/
def closeTextBlock : Text → Option (Text × Text)
  | '"' :: '"' :: '"' :: rest => some (['"', '"', '"'], rest)
  | '\\' :: c :: rest => (closeTextBlock rest).map fun cut => ('\\' :: c :: cut.1, cut.2)
  | c :: rest => (closeTextBlock rest).map fun cut => (c :: cut.1, cut.2)
  | [] => none

/-- The kind of a comment that opens with a slash and a star, from what follows them: a second star
makes it a documentation comment, unless it already closes the comment. -/
def commentKind : Text → TokenKind
  | '*' :: '/' :: _ => .blockComment
  | '*' :: _ => .docComment
  | _ => .blockComment

/-- What a reader gives: the kind and the text of the token, and the rest. -/
abbrev Reading := Except Unterminated (TokenKind × Text × Text)

/-- The reading of a token that `opener` opens and `closing` closes. -/
def enclosed (form : Unterminated) (kind : TokenKind) (opener : Text)
    (closing : Option (Text × Text)) : Reading :=
  match closing with
  | some (body, rest) => .ok (kind, opener ++ body, rest)
  | none => .error form

def run (kind : TokenKind) (part : Char → Bool) (c : Char) (rest : Text) : Reading :=
  .ok (kind, c :: rest.takeWhile part, rest.dropWhile part)

def readToken (c : Char) (rest : Text) : Reading :=
  match c, rest with
  | '/', '/' :: _ => run .lineComment (· ≠ '\n') c rest
  | '/', '*' :: body => enclosed .comment (commentKind body) ['/', '*'] (closeComment body)
  | '"', '"' :: '"' :: body => enclosed .textBlock .textBlock ['"', '"', '"'] (closeTextBlock body)
  | '"', body => enclosed .string .stringLiteral ['"'] (closeQuote '"' body)
  | '\'', body => enclosed .charLiteral .charLiteral ['\''] (closeQuote '\'' body)
  | c, rest =>
      if Text.isDigit c || (c == '.' && rest.head?.any Text.isDigit) then
        run .number isNumberPart c rest
      else if isIdentStart c then run .ident isIdentPart c rest
      else .ok (.punct, [c], rest)

theorem append_of_closeComment {text body rest : Text}
    (closed : closeComment text = some (body, rest)) : body ++ rest = text := by
  fun_induction closeComment text generalizing body rest with
  | case1 tail =>
      cases closed
      rfl
  | case2 c tail _ ih =>
      obtain ⟨cut, found, pair⟩ := Option.map_eq_some_iff.mp closed
      cases pair
      simp [ih found]
  | case3 => cases closed

theorem append_of_closeQuote {quote : Char} {text body rest : Text}
    (closed : closeQuote quote text = some (body, rest)) : body ++ rest = text := by
  fun_induction closeQuote quote text generalizing body rest with
  | case1 => cases closed
  | case2 => cases closed; rfl
  | case3 => cases closed
  | case4 d tail _ ih =>
      obtain ⟨cut, found, pair⟩ := Option.map_eq_some_iff.mp closed
      cases pair
      simp [ih found]
  | case5 => cases closed
  | case6 c tail _ _ _ ih =>
      obtain ⟨cut, found, pair⟩ := Option.map_eq_some_iff.mp closed
      cases pair
      simp [ih found]

theorem append_of_closeTextBlock {text body rest : Text}
    (closed : closeTextBlock text = some (body, rest)) : body ++ rest = text := by
  fun_induction closeTextBlock text generalizing body rest with
  | case1 tail =>
      cases closed
      rfl
  | case2 c tail ih =>
      obtain ⟨cut, found, pair⟩ := Option.map_eq_some_iff.mp closed
      cases pair
      simp [ih found]
  | case3 c tail _ _ ih =>
      obtain ⟨cut, found, pair⟩ := Option.map_eq_some_iff.mp closed
      cases pair
      simp [ih found]
  | case4 => cases closed

/-- A reading takes a part of the text that starts with its first character, and loses nothing. -/
def Reading.Splits (reading : Reading) (c : Char) (rest : Text) : Prop :=
  ∀ kind text remaining, reading = .ok (kind, text, remaining) →
    text ++ remaining = c :: rest ∧ text ≠ []

theorem run_splits (kind : TokenKind) (part : Char → Bool) (c : Char) (rest : Text) :
    (run kind part c rest).Splits c rest := by
  intro kind text remaining read
  cases read
  simp

theorem enclosed_splits (form : Unterminated) (kind : TokenKind) (opener : Text) (c : Char)
    (rest inner : Text) (closing : Option (Text × Text)) (opened : opener ++ inner = c :: rest)
    (nonempty : opener ≠ [])
    (closes : ∀ body remaining, closing = some (body, remaining) → body ++ remaining = inner) :
    (enclosed form kind opener closing).Splits c rest := by
  intro kind text remaining read
  unfold enclosed at read
  split at read
  · rename_i body tail
    cases read
    refine ⟨?_, by simp [nonempty]⟩
    rw [List.append_assoc, closes body remaining rfl, opened]
  · cases read

theorem readToken_splits (c : Char) (rest : Text) : (readToken c rest).Splits c rest := by
  unfold readToken
  split
  · exact run_splits _ _ _ _
  · exact enclosed_splits _ _ _ _ _ _ _ rfl (by simp) fun _ _ => append_of_closeComment
  · exact enclosed_splits _ _ _ _ _ _ _ rfl (by simp) fun _ _ => append_of_closeTextBlock
  · exact enclosed_splits _ _ _ _ _ _ _ rfl (by simp) fun _ _ => append_of_closeQuote
  · exact enclosed_splits _ _ _ _ _ _ _ rfl (by simp) fun _ _ => append_of_closeQuote
  · split
    · exact run_splits _ _ _ _
    · split
      · exact run_splits _ _ _ _
      · intro kind text remaining read
        cases read
        simp

/-- What is left after a token is shorter. -/
theorem length_of_readToken {c : Char} {rest text remaining : Text} {kind : TokenKind}
    (read : readToken c rest = .ok (kind, text, remaining)) :
    remaining.length ≤ rest.length := by
  obtain ⟨joined, nonempty⟩ := readToken_splits c rest kind text remaining read
  have lengths := congrArg List.length joined
  have positive : 0 < text.length := List.length_pos_iff.mpr nonempty
  simp only [List.length_append, List.length_cons] at lengths
  omega

end Token

/-- The tokens of a text up to its end or to the first token that is never closed. -/
structure Lexed where
  tokens : List Token
  /-- The blank text after the last token. -/
  tail : Text
  failure : Option LexError
  deriving DecidableEq, Repr

theorem length_dropWhile_le (part : Char → Bool) (text : Text) :
    (text.dropWhile part).length ≤ text.length :=
  (List.dropWhile_sublist part).length_le

/-- Reads the tokens of a text that starts at byte `offset` of its source. -/
def lexFrom (offset : Nat) (text : Text) : Lexed :=
  let space := text.takeWhile Text.isSpace
  match _split : text.dropWhile Text.isSpace with
  | [] => ⟨[], space, none⟩
  | c :: rest =>
      let start := offset + Text.byteSize space
      match _read : Token.readToken c rest with
      | .error form => ⟨[], space, some ⟨form, start⟩⟩
      | .ok (kind, word, remaining) =>
          let token : Token := ⟨kind, space, word, start⟩
          let lexed := lexFrom token.stop remaining
          { lexed with tokens := token :: lexed.tokens }
termination_by text.length
decreasing_by
  have shorter := Token.length_of_readToken _read
  have dropped := length_dropWhile_le Text.isSpace text
  rw [_split, List.length_cons] at dropped
  omega

/-- The tokens of a text as far as they can be read. -/
def lexAll (text : Text) : Lexed := lexFrom 0 text

def lex (text : Text) : Except LexError (List Token) :=
  let lexed := lexAll text
  match lexed.failure with
  | some error => .error error
  | none => .ok lexed.tokens

theorem lex_eq_ok_iff {text : Text} {tokens : List Token} :
    lex text = .ok tokens ↔ (lexAll text).failure = none ∧ (lexAll text).tokens = tokens := by
  unfold lex
  dsimp only
  split
  · rename_i failed
    simp [failed]
  · rename_i closed
    simp [closed]

/-- Without a failure, the tokens and the blank text around them are the text that was read. -/
theorem spell_lexFrom (offset : Nat) (text : Text) (closed : (lexFrom offset text).failure = none) :
    Token.spell (lexFrom offset text).tokens ++ (lexFrom offset text).tail = text := by
  fun_induction lexFrom offset text with
  | case1 offset text space split =>
      have joined := List.takeWhile_append_dropWhile (p := Text.isSpace) (l := text)
      rw [split, List.append_nil] at joined
      rw [Token.spell_nil, List.nil_append]
      exact joined
  | case2 => cases closed
  | case3 offset text space c rest split start kind word remaining read token lexed ih =>
      have joined := List.takeWhile_append_dropWhile (p := Text.isSpace) (l := text)
      rw [split] at joined
      obtain ⟨spelled, _⟩ := Token.readToken_splits c rest kind word remaining read
      simp only [Token.spell_cons, List.append_assoc]
      rw [ih closed]
      rw [spelled]
      exact joined

end JavaRecords
