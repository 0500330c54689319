import JavaRecords.Token.Lexer
import Mathlib.Data.List.TakeWhile
import Mathlib.Tactic.Tauto

set_option autoImplicit false

namespace JavaRecords

def Text.Blank (text : Text) : Prop := ∀ c ∈ text, Text.isSpace c = true

theorem Text.Blank.append {left right : Text} (first : left.Blank) (second : right.Blank) :
    (left ++ right).Blank := by
  intro c listed
  rcases List.mem_append.mp listed with before | after
  · exact first c before
  · exact second c after

theorem Text.Blank.of_append {left right : Text} (blank : (left ++ right).Blank) :
    left.Blank ∧ right.Blank :=
  ⟨fun c listed => blank c (List.mem_append_left _ listed),
    fun c listed => blank c (List.mem_append_right _ listed)⟩

namespace Token

/-- The characters that can extend a token they follow. -/
def extenders : List (Char → Bool) :=
  [isIdentPart, isNumberPart, Text.isDigit, (· == '/'), (· == '*'), (· == '"')]

/-- A text that extends a token only if the other text does. -/
def Looser (text other : Text) : Prop :=
  ∀ test ∈ extenders, text.head?.any test = true → other.head?.any test = true

theorem looser_of_head? {text other : Text} (same : text.head? = other.head?) :
    Looser text other := by
  intro test _ extends_
  rw [← same]
  exact extends_

/-- A text that extends no token. -/
def Loose (text : Text) : Prop := ∀ test ∈ extenders, text.head?.any test = false

theorem Loose.looser {text : Text} (loose : Loose text) (other : Text) : Looser text other := by
  intro test listed extends_
  rw [loose test listed] at extends_
  cases extends_

theorem loose_nil : Loose [] := fun _ _ => rfl

theorem loose_cons {c : Char} (free : extenders.all (fun test => !test c) = true) (rest : Text) :
    Loose (c :: rest) := by
  intro test listed
  have apart := List.all_eq_true.mp free test listed
  simpa using apart

/-- The forms of token by their first characters. -/
theorem readToken_eq (c : Char) (rest : Text) : readToken c rest =
    if c = '/' ∧ rest.head? = some '/' then run .lineComment (· ≠ '\n') c rest
    else if c = '/' ∧ rest.head? = some '*' then
      enclosed .comment (commentKind rest.tail) ['/', '*'] (closeComment rest.tail)
    else if c = '"' then
      if ['"', '"'].isPrefixOf rest then
        enclosed .textBlock .textBlock ['"', '"', '"'] (closeTextBlock (rest.drop 2))
      else enclosed .string .stringLiteral ['"'] (closeQuote '"' rest)
    else if c = '\'' then enclosed .charLiteral .charLiteral ['\''] (closeQuote '\'' rest)
    else if Text.isDigit c || (c == '.' && rest.head?.any Text.isDigit) then
      run .number isNumberPart c rest
    else if isIdentStart c then run .ident isIdentPart c rest
    else .ok (.punct, [c], rest) := by
  unfold readToken
  split
  · simp
  · simp
  · simp
  · rename_i other
    have single : ¬ ['"', '"'].isPrefixOf rest = true := by
      intro twice
      obtain ⟨body, rfl⟩ := List.isPrefixOf_iff_prefix.mp twice
      exact other body rfl
    simp [single]
  · simp
  · rename_i noString noChar noLine noBlock noText
    have first : ¬ (c = '/' ∧ rest.head? = some '/') := by
      rintro ⟨rfl, head⟩
      cases rest with
      | nil => cases head
      | cons d tail =>
          cases head
          exact noLine tail rfl rfl
    have second : ¬ (c = '/' ∧ rest.head? = some '*') := by
      rintro ⟨rfl, head⟩
      cases rest with
      | nil => cases head
      | cons d tail =>
          cases head
          exact noBlock tail rfl rfl
    have third : c ≠ '"' := fun same => noString same
    have fourth : c ≠ '\'' := fun same => noChar same
    simp only [first, second, third, fourth, ↓reduceIte]

theorem closeComment_append {text body rest : Text} (closed : closeComment text = some (body, rest))
    (other : Text) : closeComment (body ++ other) = some (body, other) ∧ 2 ≤ body.length := by
  fun_induction closeComment text generalizing body rest with
  | case1 tail =>
      cases closed
      exact ⟨rfl, by simp⟩
  | case2 c tail unclosed ih =>
      obtain ⟨⟨inner, remaining⟩, found, pair⟩ := Option.map_eq_some_iff.mp closed
      cases pair
      obtain ⟨again, long⟩ := ih found
      have joined := append_of_closeComment found
      refine ⟨?_, by simp only [List.length_cons]; omega⟩
      rw [List.cons_append, closeComment, again]
      · rfl
      · intro after star slash
        cases inner with
        | nil => cases long
        | cons d inner =>
            cases slash
            exact unclosed (inner ++ remaining) star joined.symm
  | case3 => cases closed

/-- The closing of a literal does not depend on what follows it. A closing quote right at the start
is all of it. -/
theorem closeQuote_append {quote : Char} {text body rest : Text}
    (closed : closeQuote quote text = some (body, rest)) (other : Text) :
    closeQuote quote (body ++ other) = some (body, other) ∧
      (body.head? = some quote → body = [quote]) ∧ body ≠ [] := by
  fun_induction closeQuote quote text generalizing body rest with
  | case1 => cases closed
  | case2 =>
      cases closed
      refine ⟨?_, fun _ => rfl, by simp⟩
      rw [List.singleton_append, closeQuote.eq_def]
      simp
  | case3 => cases closed
  | case4 d tail apart ih =>
      obtain ⟨⟨inner, remaining⟩, found, pair⟩ := Option.map_eq_some_iff.mp closed
      cases pair
      obtain ⟨again, _⟩ := ih found
      refine ⟨?_, fun head => absurd (Option.some.inj head) apart, by simp⟩
      simp [closeQuote, apart, again]
  | case5 => cases closed
  | case6 c tail apart noEscape noBreak ih =>
      obtain ⟨⟨inner, remaining⟩, found, pair⟩ := Option.map_eq_some_iff.mp closed
      cases pair
      obtain ⟨again, _⟩ := ih found
      refine ⟨?_, fun head => absurd (Option.some.inj head) apart, by simp⟩
      rw [List.cons_append, closeQuote.eq_def]
      simp [apart, noEscape, noBreak, again]

theorem closeTextBlock_append {text body rest : Text}
    (closed : closeTextBlock text = some (body, rest)) (other : Text) :
    closeTextBlock (body ++ other) = some (body, other) ∧ 3 ≤ body.length := by
  fun_induction closeTextBlock text generalizing body rest with
  | case1 tail =>
      cases closed
      exact ⟨rfl, by simp⟩
  | case2 c tail ih =>
      obtain ⟨⟨inner, remaining⟩, found, pair⟩ := Option.map_eq_some_iff.mp closed
      cases pair
      obtain ⟨again, long⟩ := ih found
      refine ⟨?_, by simp only [List.length_cons]; omega⟩
      simp [closeTextBlock, again]
  | case3 c tail noClose noEscape ih =>
      obtain ⟨⟨inner, remaining⟩, found, pair⟩ := Option.map_eq_some_iff.mp closed
      cases pair
      obtain ⟨again, long⟩ := ih found
      have joined := append_of_closeTextBlock found
      refine ⟨?_, by simp only [List.length_cons]; omega⟩
      match inner, long with
      | d :: e :: inner, _ =>
          rw [List.cons_append, closeTextBlock, again]
          · rfl
          · intro after quote second
            cases second
            exact noClose (inner ++ remaining) quote joined.symm
          · intro escaped after slash second
            cases second
            exact noEscape d (e :: inner ++ remaining) slash joined.symm
  | case4 => cases closed

theorem commentKind_append {body : Text} (long : 2 ≤ body.length) (rest other : Text) :
    commentKind (body ++ rest) = commentKind (body ++ other) := by
  match body, long with
  | c :: d :: body, _ =>
      by_cases star : c = '*'
      · by_cases slash : d = '/'
        · simp [commentKind, star, slash]
        · simp [commentKind, star, slash]
      · simp [commentKind, star]

theorem takeWhile_append_eq_left_iff {α : Type} (test : α → Bool) (left right : List α) :
    (left ++ right).takeWhile test = left ↔
      (∀ item ∈ left, test item = true) ∧ right.head?.any test = false := by
  induction left with
  | nil =>
      cases right with
      | nil => simp
      | cons item rest => cases tested : test item <;> simp [tested]
  | cons item rest ih =>
      cases tested : test item <;> simp [tested, ih]

/-- When a run of characters ends where it does. -/
theorem run_eq_iff (kind found : TokenKind) (part : Char → Bool) (c : Char) (word rest : Text) :
    run kind part c (word ++ rest) = .ok (found, c :: word, rest) ↔
      kind = found ∧ (∀ d ∈ word, part d = true) ∧ rest.head?.any part = false := by
  have split := takeWhile_append_eq_left_iff part word rest
  simp only [run, Except.ok.injEq, Prod.mk.injEq, List.cons.injEq, true_and]
  rw [split]
  constructor
  · rintro ⟨same, inside, _⟩
    exact ⟨same, inside⟩
  · rintro ⟨same, inside⟩
    refine ⟨same, inside, ?_⟩
    have joined := List.takeWhile_append_dropWhile (p := part) (l := word ++ rest)
    rw [split.mpr inside] at joined
    exact List.append_cancel_left joined

theorem enclosed_eq_ok {form : Unterminated} {kind found : TokenKind} {opener text rest : Text}
    {closing : Option (Text × Text)}
    (read : enclosed form kind opener closing = .ok (found, text, rest)) :
    kind = found ∧ ∃ body, closing = some (body, rest) ∧ text = opener ++ body := by
  unfold enclosed at read
  split at read
  · cases read
    exact ⟨rfl, _, rfl, rfl⟩
  · cases read

theorem Looser.not_any {text other : Text} (looser : Looser text other) {test : Char → Bool}
    (listed : test ∈ extenders) (free : other.head?.any test = false) :
    text.head?.any test = false := by
  cases extends_ : text.head?.any test with
  | false => rfl
  | true =>
      rw [looser test listed extends_] at free
      cases free

/-- The first character of a number. -/
theorem plain_of_number {c : Char} {rest : Text}
    (number : (Text.isDigit c || (c == '.' && rest.head?.any Text.isDigit)) = true) :
    c ≠ '/' ∧ c ≠ '"' ∧ c ≠ '\'' := by
  refine ⟨?_, ?_, ?_⟩ <;>
    rintro rfl <;>
    simp [Text.isDigit] at number

/-- The first character of an identifier. -/
theorem plain_of_identStart {c : Char} (start : isIdentStart c = true) :
    c ≠ '/' ∧ c ≠ '"' ∧ c ≠ '\'' ∧ c ≠ '.' := by
  refine ⟨?_, ?_, ?_, ?_⟩ <;>
    rintro rfl <;>
    revert start <;>
    decide

theorem isNumberPart_of_isDigit {c : Char} (digit : Text.isDigit c = true) :
    isNumberPart c = true := by
  simp [isNumberPart, Text.isAsciiAlphanumeric, digit]

theorem any_isDigit_of_not_numberPart {text : Text}
    (free : text.head?.any isNumberPart = false) : text.head?.any Text.isDigit = false := by
  cases text with
  | nil => rfl
  | cons d text =>
      cases digit : Text.isDigit d with
      | false => simpa using digit
      | true => simp [isNumberPart_of_isDigit digit] at free

theorem mem_extenders_isIdentPart : isIdentPart ∈ extenders := by simp [extenders]

theorem mem_extenders_isNumberPart : isNumberPart ∈ extenders := by simp [extenders]

theorem mem_extenders_isDigit : Text.isDigit ∈ extenders := by simp [extenders]

theorem mem_extenders_eq {c : Char} (marked : c = '/' ∨ c = '*' ∨ c = '"') :
    (· == c) ∈ extenders := by
  rcases marked with rfl | rfl | rfl <;> simp [extenders]

theorem Looser.head?_ne {text other : Text} (looser : Looser text other) {c : Char}
    (marked : c = '/' ∨ c = '*' ∨ c = '"') (free : other.head? ≠ some c) : text.head? ≠ some c := by
  intro found
  have extends_ := looser _ (mem_extenders_eq marked) (by simp [found])
  cases seen : other.head? with
  | none => simp [seen] at extends_
  | some d =>
      rw [seen] at extends_ free
      simp only [Option.any_some, beq_iff_eq] at extends_
      exact free (by rw [extends_])

/-- A string literal does not become a text block before a looser text. -/
theorem single_of_looser {body rest other : Text}
    (single : ¬ ['"', '"'].isPrefixOf (body ++ rest) = true)
    (first : body.head? = some '"' → body = ['"']) (nonempty : body ≠ [])
    (looser : Looser other rest) : ¬ ['"', '"'].isPrefixOf (body ++ other) = true := by
  intro twice
  cases body with
  | nil => exact nonempty rfl
  | cons c body =>
      simp only [List.cons_append, List.isPrefixOf_cons_cons, Bool.and_eq_true, beq_iff_eq] at twice
      obtain ⟨rfl, second⟩ := twice
      cases first rfl
      have third : other.head? ≠ some '"' := by
        apply looser.head?_ne (by simp)
        intro seen
        apply single
        cases rest with
        | nil => cases seen
        | cons d rest =>
            cases seen
            rfl
      cases other with
      | nil => cases second
      | cons d other =>
          simp only [List.nil_append, List.isPrefixOf_cons_cons, List.isPrefixOf_nil_left,
            Bool.and_true, beq_iff_eq] at second
          exact third (by rw [← second]; rfl)

section

variable {kind : TokenKind} {c : Char} {word rest other : Text}

theorem readToken_comment_append (other : Text)
    (read : enclosed .comment (commentKind (word ++ rest).tail) ['/', '*']
      (closeComment (word ++ rest).tail) = .ok (kind, '/' :: word, rest)) :
    readToken '/' (word ++ other) = .ok (kind, '/' :: word, other) := by
  obtain ⟨rfl, body, closed, spelled⟩ := enclosed_eq_ok read
  cases spelled
  obtain ⟨again, long⟩ := closeComment_append closed other
  have kinds := commentKind_append long rest other
  rw [readToken_eq]
  simp [again, enclosed, ← kinds]

theorem readToken_textBlock_append (other : Text)
    (read : enclosed .textBlock .textBlock ['"', '"', '"']
      (closeTextBlock ((word ++ rest).drop 2)) = .ok (kind, '"' :: word, rest)) :
    readToken '"' (word ++ other) = .ok (kind, '"' :: word, other) := by
  obtain ⟨rfl, body, closed, spelled⟩ := enclosed_eq_ok read
  cases spelled
  obtain ⟨again, _⟩ := closeTextBlock_append closed other
  rw [readToken_eq]
  simp [again, enclosed]

theorem readToken_string_of_looser (single : ¬ ['"', '"'].isPrefixOf (word ++ rest) = true)
    (read : enclosed .string .stringLiteral ['"'] (closeQuote '"' (word ++ rest)) =
      .ok (kind, '"' :: word, rest)) (looser : Looser other rest) :
    readToken '"' (word ++ other) = .ok (kind, '"' :: word, other) := by
  obtain ⟨rfl, body, closed, spelled⟩ := enclosed_eq_ok read
  cases spelled
  obtain ⟨again, first, nonempty⟩ := closeQuote_append closed other
  have stillSingle := single_of_looser single first nonempty looser
  rw [readToken_eq]
  simp only [Char.reduceEq, false_and, stillSingle, ↓reduceIte]
  simp [again, enclosed]

theorem readToken_char_append (other : Text)
    (read : enclosed .charLiteral .charLiteral ['\''] (closeQuote '\'' (word ++ rest)) =
      .ok (kind, '\'' :: word, rest)) :
    readToken '\'' (word ++ other) = .ok (kind, '\'' :: word, other) := by
  obtain ⟨rfl, body, closed, spelled⟩ := enclosed_eq_ok read
  cases spelled
  obtain ⟨again, _⟩ := closeQuote_append closed other
  rw [readToken_eq]
  simp [again, enclosed]

theorem readToken_number_of_looser
    (number : (Text.isDigit c || (c == '.' && (word ++ rest).head?.any Text.isDigit)) = true)
    (read : run .number isNumberPart c (word ++ rest) = .ok (kind, c :: word, rest))
    (looser : Looser other rest) : readToken c (word ++ other) = .ok (kind, c :: word, other) := by
  obtain ⟨rfl, inside, outside⟩ := (run_eq_iff _ _ _ _ _ _).mp read
  obtain ⟨noSlash, noQuote, noChar⟩ := plain_of_number number
  have stillNumber :
      (Text.isDigit c || (c == '.' && (word ++ other).head?.any Text.isDigit)) = true := by
    cases word with
    | nil =>
        rw [List.nil_append, any_isDigit_of_not_numberPart outside] at number
        simpa using Or.inl number
    | cons d word => simpa using number
  rw [readToken_eq]
  simp only [noSlash, noQuote, noChar, stillNumber, false_and, ↓reduceIte]
  exact (run_eq_iff _ _ _ _ _ _).mpr
    ⟨rfl, inside, looser.not_any mem_extenders_isNumberPart outside⟩

theorem readToken_ident_of_looser (start : isIdentStart c = true)
    (noNumber : ¬ (Text.isDigit c || (c == '.' && (word ++ rest).head?.any Text.isDigit)) = true)
    (read : run .ident isIdentPart c (word ++ rest) = .ok (kind, c :: word, rest))
    (looser : Looser other rest) : readToken c (word ++ other) = .ok (kind, c :: word, other) := by
  obtain ⟨rfl, inside, outside⟩ := (run_eq_iff _ _ _ _ _ _).mp read
  obtain ⟨noSlash, noQuote, noChar, noDot⟩ := plain_of_identStart start
  have noDigit : Text.isDigit c = false := by
    cases digit : Text.isDigit c <;> simp_all
  rw [readToken_eq]
  simp only [noSlash, noQuote, noChar, noDigit, start, false_and, ↓reduceIte, Bool.false_or,
    beq_eq_false_iff_ne.mpr noDot, Bool.false_and, Bool.false_eq_true]
  exact (run_eq_iff _ _ _ _ _ _).mpr
    ⟨rfl, inside, looser.not_any mem_extenders_isIdentPart outside⟩

theorem readToken_punct_of_looser (noLine : ¬ (c = '/' ∧ rest.head? = some '/'))
    (noBlock : ¬ (c = '/' ∧ rest.head? = some '*')) (noQuote : c ≠ '"') (noChar : c ≠ '\'')
    (noNumber : ¬ (Text.isDigit c || (c == '.' && rest.head?.any Text.isDigit)) = true)
    (noIdent : ¬ isIdentStart c = true) (looser : Looser other rest) :
    readToken c other = .ok (.punct, [c], other) := by
  have line : ¬ (c = '/' ∧ other.head? = some '/') := fun both =>
    looser.head?_ne (by simp) (fun seen => noLine ⟨both.1, seen⟩) both.2
  have block : ¬ (c = '/' ∧ other.head? = some '*') := fun both =>
    looser.head?_ne (by simp) (fun seen => noBlock ⟨both.1, seen⟩) both.2
  have number : ¬ (Text.isDigit c || (c == '.' && other.head?.any Text.isDigit)) = true := by
    intro now
    apply noNumber
    rcases Bool.or_eq_true _ _ ▸ now with digit | dotted
    · simp [digit]
    · obtain ⟨dot, digit⟩ := Bool.and_eq_true _ _ ▸ dotted
      simp [dot, looser _ mem_extenders_isDigit digit]
  rw [readToken_eq]
  simp only [line, block, noQuote, noChar, number, noIdent, Bool.false_eq_true, ↓reduceIte]

end

/-- A token that is not a line comment is read the same before every looser text. -/
theorem readToken_of_looser {kind : TokenKind} {c : Char} {word rest other : Text}
    (read : readToken c (word ++ rest) = .ok (kind, c :: word, rest))
    (noLine : kind ≠ .lineComment) (looser : Looser other rest) :
    readToken c (word ++ other) = .ok (kind, c :: word, other) := by
  rw [readToken_eq] at read
  by_cases line : c = '/' ∧ (word ++ rest).head? = some '/'
  · rw [if_pos line] at read
    exact absurd ((run_eq_iff _ _ _ _ _ _).mp read).1.symm noLine
  rw [if_neg line] at read
  by_cases block : c = '/' ∧ (word ++ rest).head? = some '*'
  · rw [if_pos block] at read
    obtain ⟨rfl, _⟩ := block
    exact readToken_comment_append other read
  rw [if_neg block] at read
  by_cases quote : c = '"'
  · subst quote
    rw [if_pos rfl] at read
    split at read
    · exact readToken_textBlock_append other read
    · rename_i single
      exact readToken_string_of_looser single read looser
  rw [if_neg quote] at read
  by_cases char : c = '\''
  · subst char
    rw [if_pos rfl] at read
    exact readToken_char_append other read
  rw [if_neg char] at read
  split at read
  · rename_i number
    exact readToken_number_of_looser number read looser
  · rename_i noNumber
    split at read
    · rename_i start
      exact readToken_ident_of_looser start noNumber read looser
    · rename_i noIdent
      cases read
      exact readToken_punct_of_looser line block quote char noNumber noIdent looser

/-- The kind of what `readToken` reads tells the form that was read. -/
theorem kind_eq_lineComment_iff {kind : TokenKind} {c : Char} {rest text remaining : Text}
    (read : readToken c rest = .ok (kind, text, remaining)) :
    kind = .lineComment ↔ c = '/' ∧ rest.head? = some '/' := by
  rw [readToken_eq] at read
  split at read
  · rename_i start
    cases read
    exact ⟨fun _ => start, fun _ => rfl⟩
  · rename_i noStart
    refine ⟨?_, fun start => absurd start noStart⟩
    rintro rfl
    have comment : ∀ body, commentKind body ≠ .lineComment := by
      intro body
      unfold commentKind
      repeat' split
      all_goals simp
    repeat' split at read
    · exact absurd (enclosed_eq_ok read).1 (comment _)
    · cases (enclosed_eq_ok read).1
    · cases (enclosed_eq_ok read).1
    · cases (enclosed_eq_ok read).1
    · cases read
    · cases read
    · cases read

theorem readToken_lineComment {c : Char} {word rest other : Text}
    (read : readToken c (word ++ rest) = .ok (.lineComment, c :: word, rest))
    (ended : other.head?.all (· == '\n') = true) :
    readToken c (word ++ other) = .ok (.lineComment, c :: word, other) := by
  have start := (kind_eq_lineComment_iff read).mp rfl
  rw [readToken_eq, if_pos start] at read
  obtain ⟨_, inside, outside⟩ := (run_eq_iff _ _ _ _ _ _).mp read
  have nonempty : word ≠ [] := by
    rintro rfl
    rw [List.nil_append] at start
    simp [start.2] at outside
  have again : c = '/' ∧ (word ++ other).head? = some '/' := by
    cases word with
    | nil => exact absurd rfl nonempty
    | cons d word => exact start
  rw [readToken_eq, if_pos again]
  refine (run_eq_iff _ _ _ _ _ _).mpr ⟨rfl, inside, ?_⟩
  cases other with
  | nil => rfl
  | cons d other => simpa using ended

theorem not_mem_of_lineComment {c : Char} {word rest : Text}
    (read : readToken c (word ++ rest) = .ok (.lineComment, c :: word, rest)) :
    c = '/' ∧ word.head? = some '/' ∧ '\n' ∉ word := by
  have start := (kind_eq_lineComment_iff read).mp rfl
  rw [readToken_eq, if_pos start] at read
  obtain ⟨_, inside, outside⟩ := (run_eq_iff _ _ _ _ _ _).mp read
  refine ⟨start.1, ?_, fun listed => by simpa using inside _ listed⟩
  cases word with
  | nil =>
      rw [List.nil_append] at start
      simp [start.2] at outside
  | cons d word => exact start.2

theorem readToken_blockComment {kind : TokenKind} {c : Char} {word rest : Text}
    (read : readToken c (word ++ rest) = .ok (kind, c :: word, rest))
    (comment : kind = .blockComment ∨ kind = .docComment) (other : Text) :
    readToken c (word ++ other) = .ok (kind, c :: word, other) := by
  rw [readToken_eq] at read
  repeat' split at read
  · obtain ⟨rfl, _⟩ := (run_eq_iff _ _ _ _ _ _).mp read
    simp at comment
  · rename_i start
    obtain ⟨rfl, head⟩ := start
    obtain ⟨rfl, body, closed, spelled⟩ := enclosed_eq_ok read
    cases spelled
    obtain ⟨again, long⟩ := closeComment_append closed other
    have kinds := commentKind_append long rest other
    rw [readToken_eq]
    simp [again, enclosed, ← kinds]
  · obtain ⟨rfl, _⟩ := enclosed_eq_ok read
    simp at comment
  · obtain ⟨rfl, _⟩ := enclosed_eq_ok read
    simp at comment
  · obtain ⟨rfl, _⟩ := enclosed_eq_ok read
    simp at comment
  · obtain ⟨rfl, _⟩ := (run_eq_iff _ _ _ _ _ _).mp read
    simp at comment
  · obtain ⟨rfl, _⟩ := (run_eq_iff _ _ _ _ _ _).mp read
    simp at comment
  · cases read
    simp at comment

def ReadsAs (kind : TokenKind) (text rest : Text) : Prop :=
  ∃ c word, text = c :: word ∧ Text.isSpace c = false ∧
    readToken c (word ++ rest) = .ok (kind, text, rest)

theorem ReadsAs.of_looser {kind : TokenKind} {text rest other : Text}
    (reads : ReadsAs kind text rest) (noLine : kind ≠ .lineComment) (looser : Looser other rest) :
    ReadsAs kind text other := by
  obtain ⟨c, word, rfl, visible, read⟩ := reads
  exact ⟨c, word, rfl, visible, readToken_of_looser read noLine looser⟩

theorem ReadsAs.lineComment {text rest other : Text} (reads : ReadsAs .lineComment text rest)
    (ended : other.head?.all (· == '\n') = true) : ReadsAs .lineComment text other := by
  obtain ⟨c, word, rfl, visible, read⟩ := reads
  exact ⟨c, word, rfl, visible, readToken_lineComment read ended⟩

theorem ReadsAs.blockComment {kind : TokenKind} {text rest : Text} (reads : ReadsAs kind text rest)
    (comment : kind = .blockComment ∨ kind = .docComment) (other : Text) :
    ReadsAs kind text other := by
  obtain ⟨c, word, rfl, visible, read⟩ := reads
  exact ⟨c, word, rfl, visible, readToken_blockComment read comment other⟩

/-- A line comment reaches to the end of its line. -/
theorem ReadsAs.line_ended {text rest : Text} (reads : ReadsAs .lineComment text rest) :
    rest.head?.all (· == '\n') = true := by
  obtain ⟨c, word, rfl, visible, read⟩ := reads
  have start := (kind_eq_lineComment_iff read).mp rfl
  rw [readToken_eq, if_pos start] at read
  obtain ⟨_, _, outside⟩ := (run_eq_iff _ _ _ _ _ _).mp read
  cases rest with
  | nil => rfl
  | cons d rest => simpa using outside

/-- Only the first character after a token matters. -/
theorem ReadsAs.congr_head? {kind : TokenKind} {text rest other : Text}
    (reads : ReadsAs kind text rest) (same : other.head? = rest.head?) :
    ReadsAs kind text other := by
  by_cases line : kind = .lineComment
  · subst line
    apply reads.lineComment
    rw [same]
    exact reads.line_ended
  · exact reads.of_looser line (looser_of_head? same)

theorem ReadsAs.ne_nil {kind : TokenKind} {text rest : Text} (reads : ReadsAs kind text rest) :
    text ≠ [] := by
  obtain ⟨c, word, rfl, _⟩ := reads
  simp

/-- Tokens that are read one after the other before a text. -/
def Chain : List Token → Text → Prop
  | [], _ => True
  | token :: rest, tail =>
      token.space.Blank ∧ ReadsAs token.kind token.text (spell rest ++ tail) ∧ Chain rest tail

theorem chain_append {left right : List Token} {tail : Text} :
    Chain (left ++ right) tail ↔ Chain left (spell right ++ tail) ∧ Chain right tail := by
  induction left with
  | nil => simp [Chain]
  | cons token rest ih =>
      simp only [List.cons_append, Chain, ih, spell_append, List.append_assoc]
      tauto

theorem spell_ne_nil {tokens : List Token} {tail : Text} (chain : Chain tokens tail)
    (nonempty : tokens ≠ []) : spell tokens ≠ [] := by
  cases tokens with
  | nil => exact absurd rfl nonempty
  | cons token rest =>
      have visible := chain.2.1.ne_nil
      simp [visible]

/-- A chain stays one before every text that its last token is read before. -/
theorem Chain.swap {tokens : List Token} {tail other : Text} (chain : Chain tokens tail)
    (last : ∀ token, tokens.getLast? = some token → ReadsAs token.kind token.text other) :
    Chain tokens other := by
  induction tokens with
  | nil => trivial
  | cons token rest ih =>
      obtain ⟨space, reads, others⟩ := chain
      cases rest with
      | nil => exact ⟨space, last token rfl, trivial⟩
      | cons next rest =>
          refine ⟨space, reads.congr_head? ?_, ih others fun final isLast => last final ?_⟩
          · obtain ⟨c, more, spelled⟩ :=
              List.exists_cons_of_ne_nil (spell_ne_nil others (List.cons_ne_nil _ _))
            rw [spelled]
            rfl
          · rw [List.getLast?_cons_cons]
            exact isLast

def restart (offset : Nat) : List Token → List Token
  | [] => []
  | token :: rest =>
      let start := offset + Text.byteSize token.space
      { token with start } :: restart (start + Text.byteSize token.text) rest

theorem restart_append (offset : Nat) (left right : List Token) :
    restart offset (left ++ right) =
      restart offset left ++ restart (offset + Text.byteSize (spell left)) right := by
  induction left generalizing offset with
  | nil => simp [restart]
  | cons token rest ih =>
      simp only [List.cons_append, restart, ih, spell_cons, Text.byteSize_append, Nat.add_assoc]

@[simp] theorem length_restart (offset : Nat) (tokens : List Token) :
    (restart offset tokens).length = tokens.length := by
  induction tokens generalizing offset with
  | nil => rfl
  | cons token rest ih => simp only [restart, List.length_cons, ih]

/-- The tokens start where those from a byte offset on do. -/
def Placed (offset : Nat) (tokens : List Token) : Prop := restart offset tokens = tokens

theorem placed_append {offset : Nat} {left right : List Token} :
    Placed offset (left ++ right) ↔
      Placed offset left ∧ Placed (offset + Text.byteSize (spell left)) right := by
  unfold Placed
  rw [restart_append]
  constructor
  · intro same
    exact List.append_inj same (by simp)
  · rintro ⟨first, second⟩
    rw [first, second]

theorem placed_cons {offset : Nat} {token : Token} {rest : List Token} :
    Placed offset (token :: rest) ↔ token.start = offset + Text.byteSize token.space ∧
      Placed token.stop rest := by
  unfold Placed
  rw [restart]
  constructor
  · intro same
    obtain ⟨head, tail⟩ := List.cons.inj same
    have start := congrArg Token.start head
    dsimp only at start
    rw [start] at tail
    exact ⟨start.symm, tail⟩
  · rintro ⟨start, others⟩
    rw [← start]
    exact congrArg _ others

theorem start_of_placed {offset : Nat} {before after : List Token} {token : Token}
    (placed : Placed offset (before ++ token :: after)) :
    token.start = offset + Text.byteSize (spell before ++ token.space) := by
  obtain ⟨start, _⟩ := placed_cons.mp (placed_append.mp placed).2
  rw [start, Text.byteSize_append, Nat.add_assoc]

theorem stop_of_placed {offset : Nat} {tokens : List Token} {last : Token}
    (placed : Placed offset tokens) (isLast : tokens.getLast? = some last) :
    last.stop = offset + Text.byteSize (spell tokens) := by
  obtain ⟨front, rfl⟩ := List.getLast?_eq_some_iff.mp isLast
  rw [stop, start_of_placed placed]
  simp only [spell_append, spell_cons, spell_nil, Text.byteSize_append, Text.byteSize_nil]
  omega

end Token

/-- Blank text before a visible character is what is skipped. -/
theorem takeWhile_isSpace {space : Text} {c : Char} (blank : space.Blank)
    (visible : Text.isSpace c = false) (rest : Text) :
    (space ++ c :: rest).takeWhile Text.isSpace = space ∧
      (space ++ c :: rest).dropWhile Text.isSpace = c :: rest := by
  have taken : (space ++ c :: rest).takeWhile Text.isSpace = space := by
    refine (Token.takeWhile_append_eq_left_iff _ _ _).mpr ⟨blank, ?_⟩
    simpa using visible
  have joined := List.takeWhile_append_dropWhile (p := Text.isSpace) (l := space ++ c :: rest)
  rw [taken] at joined
  exact ⟨taken, List.append_cancel_left joined⟩

theorem lexFrom_of_chain {tokens : List Token} {tail : Text} (chain : Token.Chain tokens tail)
    (blank : tail.Blank) (offset : Nat) :
    lexFrom offset (Token.spell tokens ++ tail) =
      ⟨Token.restart offset tokens, tail, none⟩ := by
  induction tokens generalizing offset with
  | nil =>
      have dropped : tail.dropWhile Text.isSpace = [] := List.dropWhile_eq_nil_iff.mpr blank
      have taken : tail.takeWhile Text.isSpace = tail := List.takeWhile_eq_self_iff.mpr blank
      rw [lexFrom, Token.spell_nil, List.nil_append]
      simp only [taken]
      split
      · rfl
      · rename_i c rest split
        rw [dropped] at split
        cases split
  | cons token rest ih =>
      obtain ⟨space, ⟨c, word, spelled, visible, read⟩, others⟩ := chain
      have text : Token.spell (token :: rest) ++ tail =
          token.space ++ c :: (word ++ (Token.spell rest ++ tail)) := by
        simp [spelled]
      obtain ⟨taken, dropped⟩ :=
        takeWhile_isSpace space visible (word ++ (Token.spell rest ++ tail))
      rw [text, lexFrom]
      simp only [taken]
      split
      · rename_i split
        rw [dropped] at split
        cases split
      · rename_i d remaining split
        rw [dropped] at split
        cases split
        split
        · rename_i form failed
          rw [read] at failed
          cases failed
        · rename_i kind text after found
          rw [read] at found
          cases found
          simp only [ih others, Token.stop, Token.restart]

/-- What is read without a failure is a chain. -/
theorem chain_of_lexFrom (offset : Nat) (text : Text)
    (closed : (lexFrom offset text).failure = none) :
    Token.Chain (lexFrom offset text).tokens (lexFrom offset text).tail ∧
      (lexFrom offset text).tail.Blank ∧
      Token.restart offset (lexFrom offset text).tokens = (lexFrom offset text).tokens := by
  fun_induction lexFrom offset text with
  | case1 offset text space split => exact ⟨trivial, fun c => List.mem_takeWhile_imp, rfl⟩
  | case2 => cases closed
  | case3 offset text space c rest split start kind word remaining read token lexed ih =>
      obtain ⟨chain, blank, starts⟩ := ih closed
      obtain ⟨spelled, nonempty⟩ := Token.readToken_splits c rest kind word remaining read
      refine ⟨⟨fun c => List.mem_takeWhile_imp, ?_, chain⟩, blank, ?_⟩
      · obtain ⟨d, tail, rfl⟩ := List.exists_cons_of_ne_nil nonempty
        cases spelled
        refine ⟨c, tail, rfl, ?_, ?_⟩
        · have head := List.head?_dropWhile_not Text.isSpace text
          rw [split] at head
          simpa using head
        · rw [spell_lexFrom _ _ closed]
          exact read
      · simp only [Token.restart]
        exact congrArg _ starts

end JavaRecords
