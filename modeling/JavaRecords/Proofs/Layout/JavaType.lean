import JavaRecords.Parse.Member
import JavaRecords.Proofs.Layout.Laid

set_option autoImplicit false

namespace JavaRecords

/-- A type: a name, a name with type arguments, or an array. -/
inductive JavaType where
  | name (word : Text)
  | generic (word : Text) (first : JavaType) (others : List JavaType)
  | array (element : JavaType)

namespace JavaType

/-- Whether a word can name a type where modifiers stand before it. -/
def isTypeWord (word : Text) : Bool :=
  word.isName && isTypeName word && word != "record".toList && word != "sealed".toList

mutual

/-- Whether every name in the type can name one. -/
def isProper : JavaType → Bool
  | name word => isTypeWord word
  | generic word first others => isTypeWord word && first.isProper && areProper others
  | array element => element.isProper

def areProper : List JavaType → Bool
  | [] => true
  | next :: rest => next.isProper && areProper rest

end

mutual

/-- The type as it is written, with a blank after each comma. -/
def text : JavaType → Text
  | name word => word
  | generic word first others => word ++ ['<'] ++ first.text ++ furtherText others ++ ['>']
  | array element => element.text ++ ['[', ']']

/-- The type arguments after the first, each after a comma. -/
def furtherText : List JavaType → Text
  | [] => []
  | next :: rest => [',', ' '] ++ next.text ++ furtherText rest

end

mutual

def tokens (space : Text) : JavaType → List Token
  | name word => [Token.word space word]
  | generic word first others =>
      Token.word space word :: Token.mark [] '<' ::
        (first.tokens [] ++ (furtherTokens others ++ [Token.mark [] '>']))
  | array element => element.tokens space ++ [Token.mark [] '[', Token.mark [] ']']

def furtherTokens : List JavaType → List Token
  | [] => []
  | next :: rest => Token.mark [] ',' :: (next.tokens [' '] ++ furtherTokens rest)

end

mutual

theorem spell_tokens (space : Text) : (ty : JavaType) →
    Token.spell (ty.tokens space) = space ++ ty.text
  | name word => by simp [tokens, text]
  | generic word first others => by
      simp [tokens, text, spell_tokens [] first, spell_furtherTokens others]
  | array element => by simp [tokens, text, spell_tokens space element]

theorem spell_furtherTokens : (others : List JavaType) →
    Token.spell (furtherTokens others) = furtherText others
  | [] => rfl
  | next :: rest => by
      simp [furtherTokens, furtherText, spell_tokens [' '] next, spell_furtherTokens rest]

end

/-- A type starts with a word. -/
theorem exists_tokens (space : Text) : (ty : JavaType) →
    ∃ word rest, ty.tokens space = Token.word space word :: rest ∧
      (ty.isProper = true → isTypeWord word = true)
  | name word => ⟨word, [], rfl, id⟩
  | generic word first others => by
      refine ⟨word, _, rfl, fun proper => ?_⟩
      simp only [isProper, Bool.and_eq_true] at proper
      exact proper.1.1
  | array element => by
      obtain ⟨word, rest, tokens, proper⟩ := exists_tokens space element
      exact ⟨word, rest ++ _, by rw [JavaType.tokens, tokens, List.cons_append], proper⟩

theorem text_laid (offset : Nat) (space : Text) (ty : JavaType) :
    Code.text (Code.laid offset (ty.tokens space)) = ty.text := by
  have spelled := ty.spell_tokens space
  obtain ⟨word, rest, tokens, _⟩ := ty.exists_tokens space
  rw [tokens] at spelled ⊢
  rw [Code.text_laid]
  refine List.append_cancel_left (show space ++ _ = space ++ _ from ?_)
  rw [← spelled]
  simp

theorem plain_mark {space : Text} {d : Char} (listed : d ∈ ['<', '>', '[', ']', ',']) :
    (Token.mark space d).isComment = false ∧
      ∀ c ∉ ['<', '>', '[', ']', ','], (Token.mark space d).isPunct c = false := by
  refine ⟨rfl, fun c other => ?_⟩
  rw [Token.isPunct_mark, beq_eq_false_iff_ne]
  rintro rfl
  exact other listed

mutual

/-- The only marks in a type are angle brackets, square brackets and commas. -/
theorem plain_tokens {space : Text} : (ty : JavaType) → ∀ token ∈ ty.tokens space,
    token.isComment = false ∧ ∀ c ∉ ['<', '>', '[', ']', ','], token.isPunct c = false
  | name word => by simp [tokens]
  | generic word first others => by
      intro token listed
      simp only [tokens, List.mem_cons, List.mem_append, List.not_mem_nil, or_false] at listed
      rcases listed with rfl | rfl | listed | listed | rfl
      · exact ⟨rfl, fun _ _ => rfl⟩
      · exact plain_mark (by simp)
      · exact plain_tokens first token listed
      · exact plain_furtherTokens others token listed
      · exact plain_mark (by simp)
  | array element => by
      intro token listed
      simp only [tokens, List.mem_cons, List.mem_append, List.not_mem_nil, or_false] at listed
      rcases listed with listed | rfl | rfl
      · exact plain_tokens element token listed
      · exact plain_mark (by simp)
      · exact plain_mark (by simp)

theorem plain_furtherTokens : (others : List JavaType) → ∀ token ∈ furtherTokens others,
    token.isComment = false ∧ ∀ c ∉ ['<', '>', '[', ']', ','], token.isPunct c = false
  | [] => by simp [furtherTokens]
  | next :: rest => by
      intro token listed
      simp only [furtherTokens, List.mem_cons, List.mem_append] at listed
      rcases listed with rfl | listed | listed
      · exact plain_mark (by simp)
      · exact plain_tokens next token listed
      · exact plain_furtherTokens rest token listed

end

theorem settled_tokens (space : Text) (ty : JavaType) : Token.Settled (ty.tokens space) :=
  Token.settled_of_plain fun token listed =>
    have plain := ty.plain_tokens token listed
    ⟨plain.1, plain.2 '=' (by decide), plain.2 '-' (by decide)⟩

mutual

/-- A type is read back up to a character that cannot continue a name. -/
theorem chain_tokens {space tail : Text} (blank : space.Blank) : (ty : JavaType) →
    ty.isProper = true → Token.Ends tail → Token.Chain (ty.tokens space) tail
  | name word, proper, ended => by
      simp only [isProper, isTypeWord, Bool.and_eq_true] at proper
      exact Token.chain_word blank proper.1.1.1 ended trivial
  | generic word first others, proper, _ => by
      simp only [isProper, isTypeWord, Bool.and_eq_true] at proper
      have close : Token.Chain [Token.mark [] '>'] tail :=
        Token.chain_mark Text.blank_nil (by decide) trivial
      have further : Token.Chain (furtherTokens others ++ [Token.mark [] '>']) tail :=
        Token.chain_append.mpr
          ⟨chain_furtherTokens others proper.2 (Token.ends_cons (by decide) _), close⟩
      have ended :
          Token.Ends (Token.spell (furtherTokens others ++ [Token.mark [] '>']) ++ tail) := by
        cases others with
        | nil => exact Token.ends_cons (by decide) _
        | cons next rest => exact Token.ends_cons (by decide) _
      have arguments := Token.chain_append.mpr
        ⟨chain_tokens Text.blank_nil first proper.1.2 ended, further⟩
      exact Token.chain_word blank proper.1.1.1.1.1 (Token.ends_cons (by decide) _)
        (Token.chain_mark Text.blank_nil (by decide) arguments)
  | array element, proper, _ => by
      rw [isProper] at proper
      refine Token.chain_append.mpr
        ⟨chain_tokens blank element proper (Token.ends_cons (by decide) _), ?_⟩
      exact Token.chain_mark Text.blank_nil (by decide)
        (Token.chain_mark Text.blank_nil (by decide) trivial)

theorem chain_furtherTokens {tail : Text} : (others : List JavaType) → areProper others = true →
    Token.Ends tail → Token.Chain (furtherTokens others) tail
  | [], _, _ => trivial
  | next :: rest, proper, ended => by
      simp only [areProper, Bool.and_eq_true] at proper
      have blank : Text.Blank [' '] := by simpa [Text.Blank] using by decide
      have later : Token.Ends (Token.spell (furtherTokens rest) ++ tail) := by
        cases rest with
        | nil => exact ended
        | cons _ _ => exact Token.ends_cons (by decide) _
      exact Token.chain_mark Text.blank_nil (by decide) (Token.chain_append.mpr
        ⟨chain_tokens blank next proper.1 later, chain_furtherTokens rest proper.2 ended⟩)

end

end JavaType

namespace Code

/-- A scan that counts the angle brackets takes every token of a type alike. -/
structure GoesOver {α : Type} (scan : Nat → List CodeToken → α) (push : CodeToken → α → α) :
    Prop where
  word : ∀ depth space text start rest, scan depth (.ofWord space text start :: rest) =
    push (.ofWord space text start) (scan depth rest)
  opening : ∀ depth space start rest, scan depth (.ofMark space '<' start :: rest) =
    push (.ofMark space '<' start) (scan (depth + 1) rest)
  closing : ∀ depth space start rest, scan (depth + 1) (.ofMark space '>' start :: rest) =
    push (.ofMark space '>' start) (scan depth rest)
  comma : ∀ depth space start rest, scan (depth + 1) (.ofMark space ',' start :: rest) =
    push (.ofMark space ',' start) (scan (depth + 1) rest)
  brackets : ∀ depth space start space' start' rest,
    scan depth (.ofMark space '[' start :: .ofMark space' ']' start' :: rest) =
      push (.ofMark space '[' start) (push (.ofMark space' ']' start') (scan depth rest))

section

variable {α : Type} {scan : Nat → List CodeToken → α} {push : CodeToken → α → α}

mutual

/-- The scan goes over a type, and is where it was. -/
theorem GoesOver.type (goes : GoesOver scan push) (depth offset : Nat) (space : Text)
    (rest : List CodeToken) : (ty : JavaType) →
    scan depth (laid offset (ty.tokens space) ++ rest) =
      (laid offset (ty.tokens space)).foldr push (scan depth rest)
  | .name word => by simp [JavaType.tokens, goes.word]
  | .generic word first others => by
      simp only [JavaType.tokens, laid_word, laid_mark, laid_append, laid_nil, List.cons_append,
        List.append_assoc, List.nil_append, List.foldr_cons, List.foldr_append, List.foldr_nil,
        goes.word, goes.opening]
      rw [goes.type (depth + 1) _ [] _ first, goes.further depth _ _ others, goes.closing]
  | .array element => by
      simp only [JavaType.tokens, laid_mark, laid_append, laid_nil, List.cons_append,
        List.append_assoc, List.nil_append, List.foldr_cons, List.foldr_append, List.foldr_nil]
      rw [goes.type depth _ space _ element, goes.brackets]

theorem GoesOver.further (goes : GoesOver scan push) (depth offset : Nat)
    (rest : List CodeToken) : (others : List JavaType) →
    scan (depth + 1) (laid offset (JavaType.furtherTokens others) ++ rest) =
      (laid offset (JavaType.furtherTokens others)).foldr push (scan (depth + 1) rest)
  | [] => rfl
  | next :: more => by
      simp only [JavaType.furtherTokens, laid_mark, laid_append, List.cons_append,
        List.append_assoc, List.foldr_cons, List.foldr_append, goes.comma]
      rw [goes.type (depth + 1) _ [' '] _ next, goes.further depth _ _ more]

end

end

/-- Puts a token in front of the part of a cut member before its end. -/
def MemberSplit.push (code : CodeToken) (split? : Option MemberSplit) : Option MemberSplit :=
  split?.map fun split => { split with before := code :: split.before }

theorem MemberSplit.foldr_push (front : List CodeToken) (split : MemberSplit) :
    front.foldr push (some split) = some { split with before := front ++ split.before } := by
  induction front with
  | nil => rfl
  | cons code rest ih => rw [List.foldr_cons, ih]; rfl

theorem goesOver_splitMember? : GoesOver splitMember? MemberSplit.push where
  word depth space text start rest := by
    simp [splitMember?, MemberSplit.push]
  opening depth space start rest := by
    simp [splitMember?, MemberSplit.push]
  closing depth space start rest := by
    simp [splitMember?, MemberSplit.push]
  comma depth space start rest := by
    simp [splitMember?, MemberSplit.push]
  brackets depth space start space' start' rest := by
    cases depth <;> simp [splitMember?, MemberSplit.push]

def pushPart (code : CodeToken) : List (List CodeToken) → List (List CodeToken)
  | [] => [[code]]
  | part :: parts => (code :: part) :: parts

theorem foldr_pushPart (front part : List CodeToken) (parts : List (List CodeToken)) :
    front.foldr pushPart (part :: parts) = (front ++ part) :: parts := by
  induction front with
  | nil => rfl
  | cons code rest ih => rw [List.foldr_cons, ih]; rfl

theorem goesOver_splitParams : GoesOver splitParams pushPart where
  word depth space text start rest := by
    simp [splitParams, opensBracket, closesBracket]
    cases splitParams depth rest <;> rfl
  opening depth space start rest := by
    simp [splitParams, opensBracket]
    cases splitParams (depth + 1) rest <;> rfl
  closing depth space start rest := by
    simp [splitParams, opensBracket, closesBracket]
    cases splitParams depth rest <;> rfl
  comma depth space start rest := by
    simp [splitParams, opensBracket, closesBracket]
    cases splitParams (depth + 1) rest <;> rfl
  brackets depth space start space' start' rest := by
    simp [splitParams, opensBracket, closesBracket]
    cases splitParams depth rest <;> rfl

end Code

end JavaRecords
