import JavaRecords.Proofs.Indexed.Run
import JavaRecords.Proofs.Token.Chain

set_option autoImplicit false

namespace JavaRecords.Indexed

def remaining (text : Text) (pos : Nat) : Run Text := cut text pos (Text.byteSize text)

/-- The character at a byte offset. -/
def peek (text : Text) (pos : Nat) : Run (Option Char) := do
  let rest ← remaining text pos
  return rest.head?

/-- The character at a byte offset, and the offset after it. -/
def bump (text : Text) (pos : Nat) : Run (Option Char × Nat) := do
  match ← peek text pos with
  | none => return (none, pos)
  | some c => return (some c, pos + c.utf8Size)

/-- The offset after a word that stands at a byte offset. -/
def skip (text word : Text) (pos : Nat) : Run Nat := do
  let rest ← remaining text pos
  if word.isPrefixOf rest then return pos + Text.byteSize word
  else .error (.fault (.missing word))

def eatWhile (text : Text) (test : Char → Bool) (pos : Nat) : Run Nat := do
  match ← peek text pos with
  | none => return pos
  | some c =>
      if test c then
        let (_, next) ← bump text pos
        if _ : pos < next ∧ next ≤ Text.byteSize text then eatWhile text test next else stuck
      else return pos
termination_by Text.byteSize text - pos

def find? (word : Text) : Text → Option Nat
  | [] => if word.isEmpty then some 0 else none
  | c :: rest =>
      if word.isPrefixOf (c :: rest) then some 0 else (find? word rest).map (· + c.utf8Size)

/-- The offset `next` after the character `c`, or after the next one if `c` is a backslash. -/
def pastEscape (text : Text) (c : Char) (next : Nat) : Run Nat :=
  if c = '\\' then (bump text next).map Prod.snd else return next

/-- The end of a token that opened at `start` and is never closed. -/
def unterminated {α : Type} (form : Unterminated) (start : Nat) : Run α :=
  .error (.parse (.lex ⟨form, start⟩))

def blockCommentEnd (text : Text) (start : Nat) : Run (TokenKind × Nat) := do
  let pos ← skip text ['/', '*'] start
  let rest ← remaining text pos
  let kind : TokenKind :=
    if ['*'].isPrefixOf rest && !(['*', '/'].isPrefixOf rest) then .docComment else .blockComment
  match find? ['*', '/'] rest with
  | some offset => return (kind, pos + (offset + 2))
  | none => unterminated .comment start

def textBlockEnd (text : Text) (start pos : Nat) : Run Nat := do
  let rest ← remaining text pos
  if ['"', '"', '"'].isPrefixOf rest then skip text ['"', '"', '"'] pos
  else
    let (c, next) ← bump text pos
    match c with
    | none => unterminated .textBlock start
    | some c =>
        let next ← pastEscape text c next
        if _ : pos < next ∧ next ≤ Text.byteSize text then textBlockEnd text start next else stuck
termination_by Text.byteSize text - pos

def quoteEnd (form : Unterminated) (quote : Char) (text : Text) (start pos : Nat) : Run Nat := do
  let (c, next) ← bump text pos
  match c with
  | none => unterminated form start
  | some c =>
      if c = quote then return next
      else if c = '\n' then unterminated form start
      else
        let next ← pastEscape text c next
        if _ : pos < next ∧ next ≤ Text.byteSize text then quoteEnd form quote text start next
        else stuck
termination_by Text.byteSize text - pos

def stringEnd (text : Text) (start : Nat) : Run (TokenKind × Nat) := do
  let rest ← remaining text start
  if ['"', '"', '"'].isPrefixOf rest then
    let pos ← skip text ['"', '"', '"'] start
    return (.textBlock, ← textBlockEnd text start pos)
  else
    let (_, pos) ← bump text start
    return (.stringLiteral, ← quoteEnd .string '"' text start pos)

def charEnd (text : Text) (start : Nat) : Run (TokenKind × Nat) := do
  let (_, pos) ← bump text start
  return (.charLiteral, ← quoteEnd .charLiteral '\'' text start pos)

def startsNumber (c : Char) (rest : Text) : Run Bool :=
  if Text.isDigit c then return true
  else if c = '.' then do
    let after ← cut rest 1 (Text.byteSize rest)
    return after.head?.any Text.isDigit
  else return false

/-- The kind and the end of the token that starts at a byte offset with the character `c` of the
text `rest` from there on. -/
def tokenEnd (text : Text) (start : Nat) (c : Char) (rest : Text) : Run (TokenKind × Nat) := do
  if ['/', '/'].isPrefixOf rest then return (.lineComment, ← eatWhile text (· ≠ '\n') start)
  else if ['/', '*'].isPrefixOf rest then blockCommentEnd text start
  else if c = '"' then stringEnd text start
  else if c = '\'' then charEnd text start
  else if ← startsNumber c rest then
    let (_, pos) ← bump text start
    return (.number, ← eatWhile text Token.isNumberPart pos)
  else if Token.isIdentStart c then return (.ident, ← eatWhile text Token.isIdentPart start)
  else
    let (_, pos) ← bump text start
    return (.punct, pos)

def lexFrom (text : Text) (pos : Nat) : Run (List Token) := do
  let start ← eatWhile text Text.isSpace pos
  let rest ← remaining text start
  match rest.head? with
  | none => return []
  | some c =>
      let (kind, stop) ← tokenEnd text start c rest
      let range ← range start stop
      let space ← cut text pos start
      let word ← cut text range.start range.stop
      if _ : pos < stop ∧ stop ≤ Text.byteSize text then
        let tokens ← lexFrom text stop
        return ⟨kind, space, word, start⟩ :: tokens
      else stuck
termination_by Text.byteSize text - pos

def lex (text : Text) : Run (List Token) := lexFrom text 0

/-- `rest` is the text from the byte offset `pos` on. -/
def Rest (text : Text) (pos : Nat) (rest : Text) : Prop :=
  ∃ before, text = before ++ rest ∧ pos = Text.byteSize before

namespace Rest

variable {text rest word : Text} {pos : Nat} {c : Char}

theorem start (text : Text) : Rest text 0 text := ⟨[], rfl, rfl⟩

theorem byteSize (here : Rest text pos rest) :
    Text.byteSize text = pos + Text.byteSize rest := by
  obtain ⟨before, rfl, rfl⟩ := here
  simp

theorem after (here : Rest text pos (word ++ rest)) :
    Rest text (pos + Text.byteSize word) rest := by
  obtain ⟨before, rfl, rfl⟩ := here
  exact ⟨before ++ word, by simp, by simp⟩

theorem next (here : Rest text pos (c :: rest)) : Rest text (pos + c.utf8Size) rest := by
  have after := Rest.after (show Rest text pos ([c] ++ rest) from here)
  rwa [Text.byteSize_cons, Text.byteSize_nil, Nat.add_zero] at after

theorem dropWhile (test : Char → Bool) (here : Rest text pos rest) :
    Rest text (pos + Text.byteSize (rest.takeWhile test)) (rest.dropWhile test) := by
  apply after
  rwa [List.takeWhile_append_dropWhile]

/-- A word that stands at an offset can be cut out. -/
theorem cut_word (here : Rest text pos (word ++ rest)) :
    cut text pos (pos + Text.byteSize word) = .ok word := by
  obtain ⟨before, rfl, rfl⟩ := here
  rw [← List.append_assoc]
  exact cut_append before word rest

@[simp] theorem remaining_eq (here : Rest text pos rest) : remaining text pos = .ok rest := by
  have whole := cut_word (show Rest text pos (rest ++ []) by simpa using here)
  rw [remaining, here.byteSize, whole]

/-- A step past the next character goes on and stays in the text. -/
theorem onward {next : Nat} {after : Text} (here : Rest text pos (c :: rest))
    (there : Rest text next after) (inside : Text.byteSize after ≤ Text.byteSize rest) :
    pos < next ∧ next ≤ Text.byteSize text := by
  have size := here.byteSize
  have later := there.byteSize
  have positive := Char.utf8Size_pos c
  rw [Text.byteSize_cons] at size
  omega

end Rest

/-- A part that can be cut out stands where it was cut. -/
theorem rest_of_cut {text part : Text} {start stop : Nat} (found : cut text start stop = .ok part) :
    start ≤ stop ∧ ∃ rest, Rest text start (part ++ rest) := by
  unfold cut Text.slice? at found
  split at found
  · rename_i middle sliced
    cases found
    split at sliced
    · rename_i ordered
      obtain ⟨⟨left, right⟩, first, sliced⟩ := Option.bind_eq_some_iff.mp sliced
      obtain ⟨⟨_, rest⟩, second, same⟩ := Option.bind_eq_some_iff.mp sliced
      cases same
      obtain ⟨rfl, rfl⟩ := Text.append_of_splitAt? first
      obtain ⟨rfl, -⟩ := Text.append_of_splitAt? second
      exact ⟨ordered, rest, left, rfl, rfl⟩
    · cases sliced
  · cases found

variable {text rest : Text} {pos : Nat} {c : Char}

theorem bump_cons (here : Rest text pos (c :: rest)) :
    bump text pos = .ok (some c, pos + c.utf8Size) := by
  simp [bump, peek, here.remaining_eq]

theorem bump_nil (here : Rest text pos []) : bump text pos = .ok (none, pos) := by
  simp [bump, peek, here.remaining_eq]

theorem skip_eq {word : Text} (here : Rest text pos (word ++ rest)) :
    skip text word pos = .ok (pos + Text.byteSize word) := by
  simp [skip, here.remaining_eq]

theorem eatWhile_eq (test : Char → Bool) (here : Rest text pos rest) :
    eatWhile text test pos = .ok (pos + Text.byteSize (rest.takeWhile test)) := by
  induction rest generalizing pos with
  | nil =>
      rw [eatWhile]
      simp [peek, here.remaining_eq]
  | cons c rest ih =>
      have goes := here.onward here.next le_rfl
      rw [eatWhile]
      by_cases taken : test c
      · simp [peek, here.remaining_eq, bump_cons here, taken, goes, ih here.next, Nat.add_assoc]
      · simp [peek, here.remaining_eq, taken]

/-- A star and a slash are found where they close a comment. -/
theorem find?_closing (rest : Text) :
    (find? ['*', '/'] rest).map (· + 2) =
      (Token.closeComment rest).map fun cut => Text.byteSize cut.1 := by
  fun_induction Token.closeComment rest with
  | case1 rest => simp [find?]; decide
  | case2 c rest none ih =>
      have later : ¬ ['*', '/'].isPrefixOf (c :: rest) := by
        intro found
        rw [List.isPrefixOf_iff_prefix] at found
        obtain ⟨after, same⟩ := found
        injection same with first others
        exact none after first.symm others.symm
      calc (find? ['*', '/'] (c :: rest)).map (· + 2)
          = ((find? ['*', '/'] rest).map (· + 2)).map (c.utf8Size + ·) := by
            rw [find?, if_neg later, Option.map_map, Option.map_map]
            congr 1
            funext offset
            simp only [Function.comp_apply]
            omega
        _ = _ := by
            rw [ih, Option.map_map, Option.map_map]
            rfl
  | case3 => rfl

def closingEnd (form : Unterminated) (start pos : Nat) : Option (Text × Text) → Run Nat
  | some (body, _) => .ok (pos + Text.byteSize body)
  | none => unterminated form start

theorem closingEnd_map {form : Unterminated} {start : Nat} (pos : Nat) (word : Text)
    (closing : Option (Text × Text)) :
    closingEnd form start pos (closing.map fun cut => (word ++ cut.1, cut.2)) =
      closingEnd form start (pos + Text.byteSize word) closing := by
  cases closing with
  | none => rfl
  | some cut => simp [closingEnd, Nat.add_assoc]

theorem pastEscape_plain (plain : c ≠ '\\') (pos : Nat) : pastEscape text c pos = .ok pos :=
  if_neg plain

theorem pastEscape_escape {d : Char} (here : Rest text pos (d :: rest)) :
    pastEscape text '\\' pos = .ok (pos + d.utf8Size) := by
  simp [pastEscape, bump_cons here]

theorem pastEscape_end (here : Rest text pos []) : pastEscape text '\\' pos = .ok pos := by
  simp [pastEscape, bump_nil here]

/-- A character that does not end a literal is passed over. -/
theorem quoteEnd_cons {form : Unterminated} {quote : Char} {start next : Nat} {after : Text}
    (here : Rest text pos (c :: rest)) (open_ : c ≠ quote) (inLine : c ≠ '\n')
    (past : pastEscape text c (pos + c.utf8Size) = .ok next) (there : Rest text next after)
    (inside : Text.byteSize after ≤ Text.byteSize rest) :
    quoteEnd form quote text start pos = quoteEnd form quote text start next := by
  rw [quoteEnd, bump_cons here]
  simp only [ok_bind, past]
  rw [if_neg open_, if_neg inLine, dif_pos (here.onward there inside)]

theorem quoteEnd_eq (form : Unterminated) (quote : Char) (start : Nat) (here : Rest text pos rest) :
    quoteEnd form quote text start pos =
      closingEnd form start pos (Token.closeQuote quote rest) := by
  fun_induction Token.closeQuote quote rest generalizing pos with
  | case1 =>
      rw [quoteEnd, bump_nil here]
      rfl
  | case2 rest =>
      rw [quoteEnd, bump_cons here]
      simp [closingEnd]
  | case3 other =>
      rw [quoteEnd_cons here other (by decide) (pastEscape_end here.next) here.next le_rfl,
        quoteEnd, bump_nil here.next]
      rfl
  | case4 d rest other ih =>
      rw [quoteEnd_cons here other (by decide) (pastEscape_escape here.next) here.next.next
        (by simp), ih here.next.next, Nat.add_assoc]
      exact (closingEnd_map pos ['\\', d] _).symm
  | case5 rest other escape =>
      rw [quoteEnd, bump_cons here]
      simp [closingEnd, other]
  | case6 c rest other escape inLine ih =>
      rw [quoteEnd_cons here other inLine (pastEscape_plain escape _) here.next le_rfl,
        ih here.next]
      exact (closingEnd_map pos [c] _).symm

/-- A character that does not start the closing of a text block is passed over. -/
theorem textBlockEnd_cons {start next : Nat} {after : Text} (here : Rest text pos (c :: rest))
    (inBlock : ¬ ['"', '"', '"'].isPrefixOf (c :: rest))
    (past : pastEscape text c (pos + c.utf8Size) = .ok next) (there : Rest text next after)
    (inside : Text.byteSize after ≤ Text.byteSize rest) :
    textBlockEnd text start pos = textBlockEnd text start next := by
  rw [textBlockEnd, here.remaining_eq, ok_bind, if_neg inBlock, bump_cons here]
  simp only [ok_bind, past]
  rw [dif_pos (here.onward there inside)]

theorem textBlockEnd_nil {start : Nat} (here : Rest text pos []) :
    textBlockEnd text start pos = unterminated .textBlock start := by
  rw [textBlockEnd, here.remaining_eq, ok_bind, if_neg (by decide), bump_nil here]
  rfl

theorem textBlockEnd_eq (start : Nat) (here : Rest text pos rest) :
    textBlockEnd text start pos = closingEnd .textBlock start pos (Token.closeTextBlock rest) := by
  fun_induction Token.closeTextBlock rest generalizing pos with
  | case1 rest =>
      rw [textBlockEnd, here.remaining_eq, ok_bind, if_pos (by simp),
        skip_eq (show Rest text pos (['"', '"', '"'] ++ rest) from here)]
      rfl
  | case2 d rest ih =>
      rw [textBlockEnd_cons here (by simp) (pastEscape_escape here.next) here.next.next (by simp),
        ih here.next.next, Nat.add_assoc]
      exact (closingEnd_map pos ['\\', d] _).symm
  | case3 c rest noClosing noEscape ih =>
      have inBlock : ¬ ['"', '"', '"'].isPrefixOf (c :: rest) := by
        intro found
        rw [List.isPrefixOf_iff_prefix] at found
        obtain ⟨after, same⟩ := found
        injection same with first others
        exact noClosing after first.symm others.symm
      by_cases escape : c = '\\'
      · subst escape
        cases rest with
        | nil =>
            rw [textBlockEnd_cons here inBlock (pastEscape_end here.next) here.next le_rfl,
              textBlockEnd_nil here.next]
            rfl
        | cons d rest => exact absurd rfl (noEscape d rest rfl)
      · rw [textBlockEnd_cons here inBlock (pastEscape_plain escape _) here.next le_rfl,
          ih here.next]
        exact (closingEnd_map pos [c] _).symm
  | case4 => exact textBlockEnd_nil here

/-- The kind and the end of a token that starts at `start`, from its reading. -/
def readingEnd (start : Nat) : Token.Reading → Run (TokenKind × Nat)
  | .ok (kind, word, _) => .ok (kind, start + Text.byteSize word)
  | .error form => unterminated form start

theorem readingEnd_enclosed (form : Unterminated) (kind : TokenKind) (start : Nat) (opener : Text)
    (closing : Option (Text × Text)) :
    readingEnd start (Token.enclosed form kind opener closing) =
      (closingEnd form start (start + Text.byteSize opener) closing).map (kind, ·) := by
  cases closing with
  | none => rfl
  | some cut => simp [Token.enclosed, readingEnd, closingEnd, Nat.add_assoc]

/-- A second star makes a documentation comment unless it closes the comment. -/
theorem commentKind_eq (rest : Text) : Token.commentKind rest =
    if ['*'].isPrefixOf rest &&
      !(['*', '/'].isPrefixOf rest) then .docComment else .blockComment := by
  cases rest with
  | nil => rfl
  | cons c rest =>
      by_cases star : c = '*'
      · subst star
        cases rest with
        | nil => rfl
        | cons d rest =>
            by_cases slash : d = '/'
            · subst slash
              rfl
            · simp [Token.commentKind, slash, Ne.symm slash]
      · simp [Token.commentKind, star, Ne.symm star]

theorem blockCommentEnd_eq (here : Rest text pos ('/' :: '*' :: rest)) :
    blockCommentEnd text pos = readingEnd pos
      (Token.enclosed .comment (Token.commentKind rest) ['/', '*'] (Token.closeComment rest)) := by
  have opened : Rest text (pos + Text.byteSize ['/', '*']) rest := Rest.after here
  have closing := find?_closing rest
  rw [blockCommentEnd, skip_eq (show Rest text pos (['/', '*'] ++ rest) from here), ok_bind,
    opened.remaining_eq, ok_bind, ← commentKind_eq, readingEnd_enclosed]
  cases found : find? ['*', '/'] rest with
  | none =>
      rw [found, Option.map_none, eq_comm, Option.map_eq_none_iff] at closing
      rw [closing]
      rfl
  | some offset =>
      rw [found, Option.map_some, eq_comm, Option.map_eq_some_iff] at closing
      obtain ⟨cut, closed, size⟩ := closing
      rw [closed]
      simp only [closingEnd, size]
      rfl

theorem stringEnd_eq (here : Rest text pos ('"' :: rest)) :
    stringEnd text pos = readingEnd pos (Token.readToken '"' rest) := by
  have opener : ['"', '"', '"'].isPrefixOf ('"' :: rest) = ['"', '"'].isPrefixOf rest := by simp
  rw [stringEnd, here.remaining_eq, ok_bind, opener, Token.readToken_eq]
  simp only [Char.reduceEq, false_and, if_false, if_true]
  by_cases block : ['"', '"'].isPrefixOf rest
  · obtain ⟨inner, rfl⟩ := List.isPrefixOf_iff_prefix.mp block
    have opened : Rest text (pos + Text.byteSize ['"', '"', '"']) inner :=
      Rest.after here
    rw [if_pos block, if_pos block,
      skip_eq (show Rest text pos (['"', '"', '"'] ++ inner) from here), ok_bind,
      textBlockEnd_eq pos opened, readingEnd_enclosed]
    rfl
  · rw [if_neg block, if_neg block, bump_cons here, ok_bind]
    dsimp only
    rw [quoteEnd_eq _ _ pos here.next, readingEnd_enclosed]
    rfl

theorem charEnd_eq (here : Rest text pos ('\'' :: rest)) :
    charEnd text pos = readingEnd pos
      (Token.enclosed .charLiteral .charLiteral ['\''] (Token.closeQuote '\'' rest)) := by
  rw [charEnd, bump_cons here, ok_bind]
  dsimp only
  rw [quoteEnd_eq _ _ pos here.next, readingEnd_enclosed]
  rfl

theorem startsNumber_eq (c : Char) (rest : Text) : startsNumber c (c :: rest) =
    .ok (Text.isDigit c || (c == '.' && rest.head?.any Text.isDigit)) := by
  unfold startsNumber
  by_cases digit : Text.isDigit c
  · simp [digit]
  · by_cases dot : c = '.'
    · subst dot
      have after : Rest ('.' :: rest) 1 rest := (Rest.start ('.' :: rest)).next
      have whole := after.remaining_eq
      rw [remaining] at whole
      rw [if_neg digit, if_pos rfl, whole]
      simp [digit]
    · simp [digit, dot]

theorem isPrefixOf_pair (c d : Char) (rest : Text) (first : Char) :
    [c, d].isPrefixOf (first :: rest) = true ↔ first = c ∧ rest.head? = some d := by
  cases rest with
  | nil => simp
  | cons second rest =>
      simp only [List.isPrefixOf_cons_cons, List.isPrefixOf_nil_left, Bool.and_true,
        Bool.and_eq_true, beq_iff_eq, List.head?_cons, Option.some.injEq]
      rw [eq_comm, eq_comm (a := d)]

theorem tokenEnd_eq (here : Rest text pos (c :: rest)) :
    tokenEnd text pos c (c :: rest) = readingEnd pos (Token.readToken c rest) := by
  unfold tokenEnd
  by_cases line : ['/', '/'].isPrefixOf (c :: rest) = true
  · rw [if_pos line, eatWhile_eq _ here, Token.readToken_eq,
      if_pos ((isPrefixOf_pair _ _ _ _).mp line), ((isPrefixOf_pair _ _ _ _).mp line).1]
    simp [Token.run, readingEnd]
  rw [if_neg line]
  by_cases comment : ['/', '*'].isPrefixOf (c :: rest) = true
  · obtain ⟨rfl, second⟩ := (isPrefixOf_pair _ _ _ _).mp comment
    obtain ⟨inner, rfl⟩ : ∃ inner, rest = '*' :: inner := by
      cases rest with
      | nil => cases second
      | cons d inner => exact ⟨inner, by rw [Option.some.inj second]⟩
    rw [if_pos comment, blockCommentEnd_eq here, Token.readToken_eq, if_neg (by simp),
      if_pos (by simp)]
    rfl
  rw [if_neg comment]
  by_cases string : c = '"'
  · subst string
    rw [if_pos rfl, stringEnd_eq here]
  rw [if_neg string]
  rw [Token.readToken_eq, if_neg fun first => line ((isPrefixOf_pair _ _ _ _).mpr first),
    if_neg fun first => comment ((isPrefixOf_pair _ _ _ _).mpr first), if_neg string]
  by_cases quote : c = '\''
  · subst quote
    rw [if_pos rfl, if_pos rfl, charEnd_eq here]
  rw [if_neg quote, if_neg quote, startsNumber_eq, ok_bind, bump_cons here]
  by_cases number : (Text.isDigit c || (c == '.' && rest.head?.any Text.isDigit)) = true
  · rw [if_pos number, if_pos number]
    simp [eatWhile_eq _ here.next, Token.run, readingEnd, Nat.add_assoc]
  rw [if_neg number, if_neg number]
  by_cases ident : Token.isIdentStart c = true
  · rw [if_pos ident, if_pos ident, eatWhile_eq _ here]
    have part : Token.isIdentPart c = true := by
      simp only [Token.isIdentStart, Token.isIdentPart, Text.isAlphanumeric, Bool.or_eq_true] at *
      tauto
    simp [Token.run, readingEnd, part]
  · rw [if_neg ident, if_neg ident]
    simp [readingEnd]

/-- What was read of a text, or the first token that is never closed. -/
def outcome (lexed : Lexed) : Run (List Token) :=
  match lexed.failure with
  | some error => .error (.parse (.lex error))
  | none => .ok lexed.tokens

/-- A token adds itself to those that are read after it. -/
theorem outcome_cons (token : Token) (lexed : Lexed) :
    outcome { lexed with tokens := token :: lexed.tokens } =
      (outcome lexed).map (token :: ·) := by
  unfold outcome
  cases lexed.failure <;> rfl

theorem lexFrom_eq (here : Rest text pos rest) :
    lexFrom text pos = outcome (JavaRecords.lexFrom pos rest) := by
  fun_induction JavaRecords.lexFrom pos rest with
  | case1 pos rest space split =>
      have there := here.dropWhile Text.isSpace
      rw [split] at there
      rw [lexFrom, eatWhile_eq _ here, ok_bind, there.remaining_eq]
      rfl
  | case2 pos rest space c after split start form read =>
      have there := here.dropWhile Text.isSpace
      rw [split] at there
      rw [lexFrom, eatWhile_eq _ here, ok_bind, there.remaining_eq, ok_bind, List.head?_cons]
      simp only [tokenEnd_eq there, read, readingEnd, unterminated, error_bind]
      rfl
  | case3 pos rest space c after split start kind word remaining read token lexed ih =>
      have there := here.dropWhile Text.isSpace
      rw [split] at there
      have spelled := (Token.readToken_splits c after kind word remaining read).1
      have spaced : Rest text pos (space ++ rest.dropWhile Text.isSpace) := by
        rwa [List.takeWhile_append_dropWhile]
      have worded : Rest text start (word ++ remaining) := by rwa [spelled]
      have goes : pos < token.stop ∧ token.stop ≤ Text.byteSize text := by
        have nonempty := (Token.readToken_splits c after kind word remaining read).2
        have positive := Text.byteSize_pos_of_ne_nil word nonempty
        have size := worded.after.byteSize
        change pos < start + Text.byteSize word ∧ start + Text.byteSize word ≤ Text.byteSize text
        omega
      rw [lexFrom, eatWhile_eq _ here, ok_bind, there.remaining_eq, ok_bind, List.head?_cons]
      simp only [tokenEnd_eq there, read, readingEnd, ok_bind]
      rw [range_of_le (Nat.le_add_right _ _), ok_bind, spaced.cut_word, ok_bind, worded.cut_word,
        ok_bind]
      refine (dif_pos goes).trans ?_
      rw [outcome_cons, ← ih worded.after]
      change (lexFrom text token.stop >>= fun tokens => .ok (token :: tokens)) = _
      cases lexFrom text token.stop <;> rfl

theorem lex_eq (text : Text) : lex text = lift ((JavaRecords.lex text).mapError .lex) := by
  rw [lex, lexFrom_eq (Rest.start text), JavaRecords.lex, lexAll, outcome]
  cases (JavaRecords.lexFrom 0 text).failure <;> rfl

end JavaRecords.Indexed
