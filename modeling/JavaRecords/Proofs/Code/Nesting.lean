import JavaRecords.Proofs.Parse.Scan

set_option autoImplicit false

namespace JavaRecords

namespace Token

/-- The brackets that are open after a token, innermost first, unless it closes a bracket that is
not the innermost. -/
def turn (opened : List Char) (token : Token) : Option (List Char) :=
  if token.isPunct '(' then some ('(' :: opened)
  else if token.isPunct '{' then some ('{' :: opened)
  else if token.isPunct ')' then if opened.head? = some '(' then some opened.tail else none
  else if token.isPunct '}' then if opened.head? = some '{' then some opened.tail else none
  else some opened

/-- The brackets that are open after some tokens. -/
def nest (opened : List Char) (tokens : List Token) : Option (List Char) :=
  tokens.foldlM turn opened

/-- Parentheses and braces are properly nested. -/
def Nested (tokens : List Token) : Prop := nest [] tokens = some []

instance (tokens : List Token) : Decidable (Nested tokens) :=
  inferInstanceAs (Decidable (nest [] tokens = some []))

theorem nest_cons (opened : List Char) (token : Token) (rest : List Token) :
    nest opened (token :: rest) = (turn opened token).bind fun next => nest next rest :=
  List.foldlM_cons

theorem nest_append (opened : List Char) (left right : List Token) :
    nest opened (left ++ right) = (nest opened left).bind fun next => nest next right :=
  List.foldlM_append

theorem nested_nil : Nested [] := rfl

/-- Brackets that were open before stay open under nested code. -/
theorem turn_append {opened next : List Char} {token : Token}
    (turns : turn opened token = some next)
    (outer : List Char) : turn (opened ++ outer) token = some (next ++ outer) := by
  unfold turn at turns ⊢
  split_ifs at turns ⊢ with paren brace closing head brace' head' <;> cases turns
  all_goals cases opened <;> simp_all

theorem nest_outer {opened next : List Char} {tokens : List Token}
    (nests : nest opened tokens = some next) (outer : List Char) :
    nest (opened ++ outer) tokens = some (next ++ outer) := by
  induction tokens generalizing opened with
  | nil =>
      cases nests
      rfl
  | cons token rest ih =>
      rw [nest_cons] at nests ⊢
      obtain ⟨middle, turns, later⟩ := Option.bind_eq_some_iff.mp nests
      rw [turn_append turns]
      exact ih later

theorem Nested.nest {tokens : List Token} (nested : Nested tokens) (opened : List Char) :
    Token.nest opened tokens = some opened := nest_outer nested opened

theorem Nested.append {left right : List Token} (first : Nested left) (second : Nested right) :
    Nested (left ++ right) := by
  rw [Nested, nest_append, first]
  exact second

theorem Nested.of_append {left right : List Token} (nested : Nested (left ++ right))
    (first : Nested left) : Nested right := by
  rw [Nested, nest_append, first] at nested
  exact nested

/-- Tokens of the same kinds and texts are nested alike. -/
theorem nest_congr {left right : List Token}
    (same : List.Forall₂ (fun token other : Token =>
      token.kind = other.kind ∧ token.text = other.text) left right) (opened : List Char) :
    nest opened left = nest opened right := by
  induction same generalizing opened with
  | nil => rfl
  | @cons token other rest more here _ ih =>
      have punct : ∀ c, token.isPunct c = other.isPunct c := fun c => by
        rw [isPunct, isPunct, here.1, here.2]
      have turns : turn opened token = turn opened other := by
        unfold turn
        rw [punct, punct, punct, punct]
      rw [nest_cons, nest_cons, turns]
      simp only [ih]

/-- Whether a token is no parenthesis, brace, semicolon or equals sign. -/
def isPlain (token : Token) : Bool :=
  ['(', ')', '{', '}', ';', '='].all fun c => !token.isPunct c

theorem isPunct_of_isPlain {token : Token} (plain : token.isPlain = true) {c : Char}
    (listed : c ∈ ['(', ')', '{', '}', ';', '=']) : token.isPunct c = false := by
  have here := List.all_eq_true.mp plain c listed
  simpa using here

theorem turn_of_isPlain {token : Token} (plain : token.isPlain = true) (opened : List Char) :
    turn opened token = some opened := by
  simp [turn, isPunct_of_isPlain plain]

theorem nested_of_plain {tokens : List Token} (plain : ∀ token ∈ tokens, token.isPlain = true) :
    Nested tokens := by
  induction tokens with
  | nil => exact nested_nil
  | cons token rest ih =>
      rw [Nested, nest_cons, turn_of_isPlain (plain token List.mem_cons_self)]
      exact ih fun other listed => plain other (List.mem_cons_of_mem _ listed)

theorem isPlain_of_kind {token : Token} (other : token.kind ≠ .punct) : token.isPlain = true := by
  have none : ∀ c, token.isPunct c = false := fun c => by simp [isPunct, other]
  simp [isPlain, none]

theorem isPlain_of_isIdent {token : Token} (ident : token.isIdent = true) :
    token.isPlain = true := by
  refine isPlain_of_kind ?_
  rw [show token.kind = .ident by simpa [isIdent] using ident]
  decide

theorem isPunct_eq {token : Token} {c : Char} (punct : token.isPunct c = true) (d : Char) :
    token.isPunct d = (c == d) :=
  @CodeToken.isPunct_of_isPunct ⟨token, [], none, false⟩ c punct d

theorem turn_of_opening {token : Token} {c : Char} (punct : token.isPunct c = true)
    (isOpening : c ∈ ['(', '{']) (opened : List Char) : turn opened token = some (c :: opened) := by
  have same : ∀ d, token.isPunct d = (c == d) := isPunct_eq punct
  simp only [List.mem_cons, List.not_mem_nil, or_false] at isOpening
  rcases isOpening with rfl | rfl <;> simp [turn, same]

theorem turn_of_brace {token : Token} (punct : token.isPunct '}' = true) (opened : List Char) :
    turn opened token = if opened.head? = some '{' then some opened.tail else none := by
  have same : ∀ d, token.isPunct d = ('}' == d) := isPunct_eq punct
  simp [turn, same]

theorem turn_cases {opened next : List Char} {token : Token}
    (turns : turn opened token = some next) :
    (token.isPunct '(' = true ∧ next = '(' :: opened) ∨
    (token.isPunct '{' = true ∧ next = '{' :: opened) ∨
    (token.isPunct ')' = true ∧ opened = '(' :: next) ∨
    (token.isPunct '}' = true ∧ opened = '{' :: next) ∨
    ((∀ c ∈ ['(', '{', ')', '}'], token.isPunct c = false) ∧ next = opened) := by
  unfold turn at turns
  split_ifs at turns with paren brace closing head closing' head' <;> cases turns
  · exact .inl ⟨paren, rfl⟩
  · exact .inr (.inl ⟨brace, rfl⟩)
  · refine .inr (.inr (.inl ⟨closing, ?_⟩))
    exact (List.head?_eq_some_iff.mp head).elim (by rintro tail rfl; rfl)
  · refine .inr (.inr (.inr (.inl ⟨closing', ?_⟩)))
    exact (List.head?_eq_some_iff.mp head').elim (by rintro tail rfl; rfl)
  · refine .inr (.inr (.inr (.inr ⟨?_, rfl⟩)))
    simp_all

/-- A token leaves the outermost open bracket, or closes it. -/
theorem turn_concat {opened next : List Char} {c : Char} {token : Token}
    (turns : turn (opened ++ [c]) token = some next) :
    (∃ inner, turn opened token = some inner ∧ next = inner ++ [c]) ∨
      (opened = [] ∧ next = [] ∧
        (c = '(' ∧ token.isPunct ')' = true ∨ c = '{' ∧ token.isPunct '}' = true)) := by
  unfold turn at turns ⊢
  split_ifs at turns ⊢ with paren brace closing head closing' head' <;> cases turns
  · exact .inl ⟨_, rfl, rfl⟩
  · exact .inl ⟨_, rfl, rfl⟩
  all_goals cases opened <;> simp_all

end Token

namespace PieceScan

open Token (turn nest Nested)

/-- The scan stays in parentheses and counts those that are open in them. -/
theorem step_parens {opened next : List Char} {code : CodeToken}
    (turns : turn opened code.token = some next) (isOpen : Bool) (start : Nat) :
    step Code.declarationRule ⟨opened.count '(' + 1, isOpen, 0, start⟩ code none =
      some ⟨next.count '(' + 1, isOpen, 0, start⟩ := by
  rcases Token.turn_cases turns with
    ⟨punct, rfl⟩ | ⟨punct, rfl⟩ | ⟨punct, rfl⟩ | ⟨punct, rfl⟩ | ⟨others, rfl⟩
  all_goals try have same := CodeToken.isPunct_of_isPunct punct
  · simp [step, same]
  · simp [step, same]
  · simp [step, same]
  · simp [step, same]
  · have paren : code.isPunct '(' = false := others '(' (by decide)
    have closing : code.isPunct ')' = false := others ')' (by decide)
    simp [step, paren, closing]

/-- The scan stays in a block and counts the braces that are open in it. -/
theorem step_braces {opened next : List Char} {code : CodeToken}
    (turns : turn opened code.token = some next) (parens : Nat) (isOpen : Bool) (start : Nat) :
    step Code.declarationRule ⟨parens, isOpen, opened.count '{' + 1, start⟩ code none =
      some ⟨parens, isOpen, next.count '{' + 1, start⟩ := by
  rcases Token.turn_cases turns with
    ⟨punct, rfl⟩ | ⟨punct, rfl⟩ | ⟨punct, rfl⟩ | ⟨punct, rfl⟩ | ⟨others, rfl⟩
  all_goals try have same := CodeToken.isPunct_of_isPunct punct
  · simp [step, same]
  · simp [step, same]
  · simp [step, same]
  · simp [step, same]
  · have brace : code.isPunct '{' = false := others '{' (by decide)
    have closing : code.isPunct '}' = false := others '}' (by decide)
    simp [step, brace, closing]

/-- A scan that follows the open brackets token by token follows them over a run. -/
theorem across_of_turns (scan : List Char → PieceScan)
    (steps : ∀ {opened next : List Char} {code : CodeToken}, turn opened code.token = some next →
      step Code.declarationRule (scan opened) code none = some (scan next))
    {opened next : List Char} {code : List CodeToken}
    (nests : nest opened (code.map CodeToken.token) = some next) :
    across (scan opened) code = some (scan next) := by
  induction code generalizing opened with
  | nil =>
      cases nests
      rfl
  | cons first rest ih =>
      rw [List.map_cons, Token.nest_cons] at nests
      obtain ⟨middle, turns, later⟩ := Option.bind_eq_some_iff.mp nests
      rw [across_cons (steps turns)]
      exact ih later

theorem across_parens {opened next : List Char} {code : List CodeToken}
    (nests : nest opened (code.map CodeToken.token) = some next) (isOpen : Bool) (start : Nat) :
    across ⟨opened.count '(' + 1, isOpen, 0, start⟩ code =
      some ⟨next.count '(' + 1, isOpen, 0, start⟩ :=
  across_of_turns (fun opened => ⟨opened.count '(' + 1, isOpen, 0, start⟩)
    (fun turns => step_parens turns isOpen start) nests

theorem across_braces {opened next : List Char} {code : List CodeToken}
    (nests : nest opened (code.map CodeToken.token) = some next) (parens : Nat) (isOpen : Bool)
    (start : Nat) :
    across ⟨parens, isOpen, opened.count '{' + 1, start⟩ code =
      some ⟨parens, isOpen, next.count '{' + 1, start⟩ :=
  across_of_turns (fun opened => ⟨parens, isOpen, opened.count '{' + 1, start⟩)
    (fun turns => step_braces turns parens isOpen start) nests

theorem across_within {code : List CodeToken} (nested : Nested (code.map CodeToken.token)) :
    (within 1).across code = some (within 1) := across_parens nested false 0

/-- The scan counts the brackets that are open in a declaration. -/
inductive Counts : PieceScan → List Char → Prop
  | outside (isOpen : Bool) (start : Nat) : Counts ⟨0, isOpen, 0, start⟩ []
  | parens (opened : List Char) (isOpen : Bool) (start : Nat) :
      Counts ⟨opened.count '(' + 1, isOpen, 0, start⟩ (opened ++ ['('])
  | braces (opened : List Char) (isOpen : Bool) (start : Nat) :
      Counts ⟨0, isOpen, opened.count '{' + 1, start⟩ (opened ++ ['{'])

theorem Counts.step {scan : PieceScan} {opened next : List Char} {code : CodeToken}
    (counts : scan.Counts opened) (turns : turn opened code.token = some next) :
    (scan.step Code.declarationRule code none).elim (next = []) fun later => later.Counts next := by
  cases counts with
  | outside isOpen start =>
      rcases Token.turn_cases turns with
        ⟨punct, rfl⟩ | ⟨punct, rfl⟩ | ⟨_, absent⟩ | ⟨_, absent⟩ | ⟨others, rfl⟩
      · have same := CodeToken.isPunct_of_isPunct punct
        simp only [PieceScan.step, same]
        exact .parens [] isOpen start
      · have same := CodeToken.isPunct_of_isPunct punct
        simp only [PieceScan.step, same]
        exact .braces [] isOpen code.start
      · cases absent
      · cases absent
      · have paren : code.isPunct '(' = false := others '(' (by decide)
        have closing : code.isPunct ')' = false := others ')' (by decide)
        have brace : code.isPunct '{' = false := others '{' (by decide)
        have goes : PieceScan.step Code.declarationRule ⟨0, isOpen, 0, start⟩ code none =
            if code.isPunct ';' then none
            else some ⟨0, isOpen || Code.declarationRule.keepsOpen code, 0, start⟩ := by
          simp [PieceScan.step, paren, closing, brace]
        rw [goes]
        split
        · rfl
        · exact .outside _ _
  | parens opened isOpen start =>
      rcases Token.turn_concat turns with ⟨inner, within, rfl⟩
        | ⟨rfl, rfl, ⟨_, punct⟩ | ⟨absent, _⟩⟩
      · rw [step_parens within]
        exact .parens inner isOpen start
      · have same := CodeToken.isPunct_of_isPunct punct
        simp only [PieceScan.step, same]
        exact .outside isOpen start
      · exact absurd absent (by decide)
  | braces opened isOpen start =>
      rcases Token.turn_concat turns with ⟨inner, within, rfl⟩
        | ⟨rfl, rfl, ⟨absent, _⟩ | ⟨_, punct⟩⟩
      · rw [step_braces within]
        exact .braces inner isOpen start
      · exact absurd absent (by decide)
      · have same := CodeToken.isPunct_of_isPunct punct
        have goes : PieceScan.step Code.declarationRule ⟨0, isOpen, 1, start⟩ code none =
            if isOpen then some ⟨0, isOpen, 0, start⟩ else none := by
          cases isOpen <;> simp [PieceScan.step, same, Code.declarationRule]
        change (PieceScan.step Code.declarationRule ⟨0, isOpen, 1, start⟩ code none).elim _ _
        rw [goes]
        split
        · exact .outside _ _
        · rfl

theorem Counts.across {scan later : PieceScan} {opened next : List Char} {code : List CodeToken}
    (counts : scan.Counts opened) (goes : scan.across code = some later)
    (nests : nest opened (code.map CodeToken.token) = some next) : later.Counts next := by
  induction code generalizing scan opened with
  | nil =>
      cases goes
      cases nests
      exact counts
  | cons first rest ih =>
      obtain ⟨middle, steps, goesRest⟩ := Option.bind_eq_some_iff.mp goes
      rw [List.map_cons, Token.nest_cons] at nests
      obtain ⟨inner, turns, nestsRest⟩ := Option.bind_eq_some_iff.mp nests
      have here := counts.step turns
      rw [steps] at here
      exact ih here goesRest nestsRest

theorem Counts.eq_nil {opened : List Char} (counts : fresh.Counts opened) : opened = [] := by
  generalize isFresh : fresh = scan at counts
  cases counts <;> first | rfl | cases isFresh

/-- What the scan of a declaration leaves as it met it is nested. -/
theorem nest_of_over {code : List CodeToken} {next : List Char}
    (goes : fresh.across code = some fresh)
    (nests : nest [] (code.map CodeToken.token) = some next) : next = [] :=
  (Counts.across (.outside false 0) goes nests).eq_nil

theorem nest_of_ends {scan : PieceScan} {opened next : List Char} {code : List CodeToken}
    (counts : scan.Counts opened) (ends : Code.Ends scan code)
    (nests : nest opened (code.map CodeToken.token) = some next) : next = [] := by
  induction ends generalizing opened with
  | last ends =>
      rw [List.map_cons, Token.nest_cons] at nests
      obtain ⟨inner, turns, isNext⟩ := Option.bind_eq_some_iff.mp nests
      cases isNext
      have here := counts.step turns
      rw [ends] at here
      exact here
  | step goes _ ih =>
      rw [List.map_cons, Token.nest_cons] at nests
      obtain ⟨inner, turns, nestsRest⟩ := Option.bind_eq_some_iff.mp nests
      have here := counts.step turns
      rw [goes] at here
      exact ih here nestsRest

/-- The code in the braces of a declaration that nothing keeps open does not close them. -/
theorem nest_inside {opened next : List Char} {start : Nat} {later : PieceScan}
    {code : List CodeToken}
    (goes : across ⟨0, false, opened.count '{' + 1, start⟩ code = some later)
    (nests : nest (opened ++ ['{']) (code.map CodeToken.token) = some next) :
    ∃ inner, nest opened (code.map CodeToken.token) = some inner ∧ next = inner ++ ['{'] := by
  induction code generalizing opened with
  | nil =>
      cases nests
      exact ⟨opened, rfl, rfl⟩
  | cons first rest ih =>
      rw [List.map_cons, Token.nest_cons] at nests ⊢
      obtain ⟨middle, turns, nestsRest⟩ := Option.bind_eq_some_iff.mp nests
      rcases Token.turn_concat turns with ⟨inner, within, rfl⟩
        | ⟨rfl, rfl, ⟨absent, _⟩ | ⟨_, punct⟩⟩
      · rw [across_cons (step_braces within 0 false start)] at goes
        rw [within]
        exact ih goes nestsRest
      · exact absurd absent (by decide)
      · -- a brace that closes the block would end the declaration
        have same := CodeToken.isPunct_of_isPunct punct
        simp [across, step, same, Code.declarationRule] at goes

end PieceScan

namespace Code

open Token (Nested)

theorem Cut.nested {pieces : List Piece} (cut : Cut pieces)
    (nested : Nested ((pieces.flatMap Piece.tokens).map CodeToken.token)) :
    ∀ piece ∈ pieces, Nested (piece.tokens.map CodeToken.token) := by
  induction cut with
  | nil => exact fun _ listed => absurd listed List.not_mem_nil
  | @last piece _ =>
      intro other listed
      rw [List.mem_singleton.mp listed]
      rwa [List.flatMap_singleton] at nested
  | @cons piece rest ends _ ih =>
      rw [List.flatMap_cons, List.map_append] at nested
      have first : Nested (piece.tokens.map CodeToken.token) := by
        have whole := nested
        rw [Nested, Token.nest_append] at whole
        obtain ⟨next, nests, _⟩ := Option.bind_eq_some_iff.mp whole
        rw [Nested, nests, PieceScan.nest_of_ends (.outside false 0) ends nests]
      intro other listed
      rcases List.mem_cons.mp listed with rfl | later
      · exact first
      · exact ih (nested.of_append first) other later

end Code

end JavaRecords
