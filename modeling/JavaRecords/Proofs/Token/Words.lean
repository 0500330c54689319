import JavaRecords.Proofs.Token.Chain
import Mathlib.Data.List.Forall2

set_option autoImplicit false

namespace JavaRecords

/-- A token that is not a comment, and what must stand between the word before and it. -/
structure Word where
  kind : TokenKind
  text : Text
  lead : Option Text
  deriving DecidableEq, Repr

namespace Word

structure Fits (found wanted : Word) : Prop where
  kind : found.kind = wanted.kind
  text : found.text = wanted.text
  lead : ∀ lead, wanted.lead = some lead → found.lead = some lead

theorem Fits.refl (word : Word) : Fits word word := ⟨rfl, rfl, fun _ same => same⟩

theorem map_text_of_fits {words others : List Word} (fits : List.Forall₂ Fits words others) :
    words.map Word.text = others.map Word.text := by
  induction fits with
  | nil => rfl
  | cons same _ ih => rw [List.map_cons, List.map_cons, same.text, ih]

/-- The words of a list of tokens. `pending` is the text of the comments already met. -/
def found (pending : Text) : List Token → List Word
  | [] => []
  | token :: rest =>
      if token.isComment then found (pending ++ token.space ++ token.text) rest
      else ⟨token.kind, token.text, some (pending ++ token.space)⟩ :: found [] rest

def pending (before : Text) : List Token → Text
  | [] => before
  | token :: rest =>
      if token.isComment then pending (before ++ token.space ++ token.text) rest
      else pending [] rest

theorem found_append (before : Text) (left right : List Token) :
    found before (left ++ right) = found before left ++ found (pending before left) right := by
  induction left generalizing before with
  | nil => rfl
  | cons token rest ih =>
      rw [List.cons_append, found, found, pending]
      split
      · exact ih _
      · rw [ih, List.cons_append]

@[simp] theorem found_restart (before : Text) (offset : Nat) (tokens : List Token) :
    found before (Token.restart offset tokens) = found before tokens := by
  induction tokens generalizing before offset with
  | nil => rfl
  | cons token rest ih =>
      simp only [Token.restart, found, Token.isComment, ih]
      rfl

/-- Nothing is asked about the text before the first word. -/
def Headless (words : List Word) : Prop := ∀ word ∈ words.head?, word.lead = none

theorem headless_nil : Headless [] := by simp [Headless]

theorem headless_cons (kind : TokenKind) (text : Text) (rest : List Word) :
    Headless (⟨kind, text, none⟩ :: rest) := by simp [Headless]

theorem Headless.append {left right : List Word} (first : Headless left) (second : Headless right) :
    Headless (left ++ right) := by
  cases left with
  | nil => exact second
  | cons word rest => simpa [Headless] using first

/-- The words with nothing asked about the text before the first. -/
def headless : List Word → List Word
  | [] => []
  | word :: rest => { word with lead := none } :: rest

theorem headless_headless (words : List Word) : Headless (headless words) := by
  cases words <;> simp [Headless, headless]

theorem fits_headless (words : List Word) : List.Forall₂ Fits words (headless words) := by
  cases words with
  | nil => exact .nil
  | cons word rest =>
      refine .cons ⟨rfl, rfl, fun _ asked => by cases asked⟩ ?_
      exact List.forall₂_same.mpr fun word _ => Fits.refl word

@[simp] theorem map_text_headless (words : List Word) :
    (headless words).map Word.text = words.map Word.text := by
  cases words <;> rfl

theorem fits_of_lead {kind : TokenKind} {text lead : Text} {found words : List Word} (other : Text)
    (head : Headless words) (fits : List.Forall₂ Fits (⟨kind, text, some lead⟩ :: found) words) :
    List.Forall₂ Fits (⟨kind, text, some other⟩ :: found) words := by
  cases fits with
  | cons first more =>
      refine .cons ⟨first.kind, first.text, ?_⟩ more
      intro lead asked
      rw [head _ rfl] at asked
      cases asked

/-- The comments before the first word do not matter to words that ask nothing about them. -/
theorem fits_of_pending {tokens : List Token} {words : List Word} (before other : Text)
    (head : Headless words) (fits : List.Forall₂ Fits (found before tokens) words) :
    List.Forall₂ Fits (found other tokens) words := by
  induction tokens generalizing before other with
  | nil => exact fits
  | cons token rest ih =>
      rw [found] at fits ⊢
      split
      · rename_i comment
        rw [if_pos comment] at fits
        exact ih _ _ fits
      · rename_i code
        rw [if_neg code] at fits
        exact fits_of_lead _ head fits

theorem fits_of_space {before : Text} {token : Token} {rest : List Token} {words : List Word}
    (space : Text) (head : Headless words)
    (fits : List.Forall₂ Fits (found before (token :: rest)) words) :
    List.Forall₂ Fits (found before ({ token with space } :: rest)) words := by
  rw [found] at fits ⊢
  split
  · rename_i comment
    rw [if_pos (show token.isComment = true from comment)] at fits
    exact fits_of_pending _ _ head fits
  · rename_i code
    rw [if_neg (show ¬ token.isComment = true from code)] at fits
    exact fits_of_lead _ head fits

end Word

namespace Token

/-- The texts of the comments among tokens, without the blank text at their ends. -/
def notes (tokens : List Token) : List Text :=
  (tokens.filter isComment).map fun comment => comment.text.trimEnd

@[simp] theorem notes_nil : notes [] = [] := rfl

theorem notes_cons (token : Token) (rest : List Token) :
    notes (token :: rest) = notes [token] ++ notes rest := by
  unfold notes
  rw [← List.map_append, ← List.filter_append, List.singleton_append]

@[simp] theorem notes_append (left right : List Token) :
    notes (left ++ right) = notes left ++ notes right := by
  simp [notes]

theorem notes_comment {token : Token} (comment : token.isComment = true) :
    notes [token] = [token.text.trimEnd] := by
  simp [notes, comment]

theorem notes_code {token : Token} (code : token.isComment = false) : notes [token] = [] := by
  simp [notes, code]

/-- Where a token stands does not matter to its note. -/
theorem notes_moved (token : Token) (space : Text) (start : Nat) :
    notes [{ token with space, start }] = notes [token] := by
  cases comment : token.kind.isComment <;> simp [notes, isComment, comment]

@[simp] theorem notes_restart (offset : Nat) (tokens : List Token) :
    notes (restart offset tokens) = notes tokens := by
  induction tokens generalizing offset with
  | nil => rfl
  | cons token rest ih =>
      rw [restart, notes_cons, ih, notes_cons token rest, notes_moved]

end Token

/-- A text can be read and has the given words. -/
def Spells (text : Text) (words : List Word) : Prop :=
  ∃ tokens tail, text = Token.spell tokens ++ tail ∧ Token.Chain tokens tail ∧ tail.Blank ∧
    List.Forall₂ Word.Fits (Word.found [] tokens) words

/-- A text can be read and has the given words and notes. -/
def Tells (text : Text) (words : List Word) (notes : List Text) : Prop :=
  ∃ tokens tail, text = Token.spell tokens ++ tail ∧ Token.Chain tokens tail ∧ tail.Blank ∧
    List.Forall₂ Word.Fits (Word.found [] tokens) words ∧ Token.notes tokens = notes

theorem Spells.lexFrom_eq {text : Text} {words : List Word} (spells : Spells text words)
    (offset : Nat) :
    (lexFrom offset text).failure = none ∧
      List.Forall₂ Word.Fits (Word.found [] (lexFrom offset text).tokens) words := by
  obtain ⟨tokens, tail, rfl, chain, blank, fits⟩ := spells
  rw [lexFrom_of_chain chain blank offset]
  exact ⟨rfl, by simpa using fits⟩

namespace Tells

theorem spells {text : Text} {words : List Word} {notes : List Text}
    (tells : Tells text words notes) : Spells text words := by
  obtain ⟨tokens, tail, same, chain, blank, fits, _⟩ := tells
  exact ⟨tokens, tail, same, chain, blank, fits⟩

theorem notes_lexFrom {text : Text} {words : List Word} {notes : List Text}
    (tells : Tells text words notes) (offset : Nat) :
    Token.notes (lexFrom offset text).tokens = notes := by
  obtain ⟨tokens, tail, rfl, chain, blank, _, same⟩ := tells
  rw [lexFrom_of_chain chain blank offset, Token.notes_restart, same]

theorem of_blank {text : Text} (blank : text.Blank) : Tells text [] [] :=
  ⟨[], text, rfl, trivial, blank, .nil, rfl⟩

theorem blank_append {space text : Text} {words : List Word} {notes : List Text}
    (blank : space.Blank) (head : Word.Headless words) (tells : Tells text words notes) :
    Tells (space ++ text) words notes := by
  obtain ⟨tokens, tail, rfl, chain, blankTail, fits, noted⟩ := tells
  cases tokens with
  | nil => exact ⟨[], space ++ tail, rfl, trivial, blank.append blankTail, fits, noted⟩
  | cons token rest =>
      obtain ⟨blankToken, reads, others⟩ := chain
      rw [Token.notes_cons] at noted
      refine ⟨{ token with space := space ++ token.space } :: rest, tail, by simp,
        ⟨blank.append blankToken, reads, others⟩, blankTail, ?_, ?_⟩
      · exact Word.fits_of_space _ head fits
      · rw [Token.notes_cons, Token.notes_moved token _ token.start, noted]

/-- Blank text in front may be taken off. -/
theorem of_blank_append {space text : Text} {words : List Word} {notes : List Text}
    (blank : space.Blank) (head : Word.Headless words) (tells : Tells (space ++ text) words notes) :
    Tells text words notes := by
  obtain ⟨tokens, tail, same, chain, blankTail, fits, noted⟩ := tells
  cases tokens with
  | nil =>
      rw [Token.spell_nil, List.nil_append] at same
      subst same
      exact ⟨[], text, rfl, trivial, blankTail.of_append.2, fits, noted⟩
  | cons token rest =>
      obtain ⟨blankToken, reads, others⟩ := chain
      obtain ⟨c, word, spelled, visible, _⟩ := id reads
      -- the blank text is part of what stands before the first token
      obtain ⟨more, split⟩ : ∃ more, token.space = space ++ more := by
        have left := takeWhile_isSpace blankToken visible (word ++ (Token.spell rest ++ tail))
        have taken : (space ++ text).takeWhile Text.isSpace = token.space := by
          rw [same]
          simpa [spelled] using left.1
        rw [List.takeWhile_append_of_pos blank] at taken
        exact ⟨_, taken.symm⟩
      have remaining : text = Token.spell ({ token with space := more } :: rest) ++ tail := by
        simp only [Token.spell_cons, split, List.append_assoc] at same
        simpa using List.append_cancel_left same
      rw [Token.notes_cons] at noted
      refine ⟨{ token with space := more } :: rest, tail, remaining,
        ⟨(split ▸ blankToken).of_append.2, reads, others⟩, blankTail, ?_, ?_⟩
      · exact Word.fits_of_space _ head fits
      · rw [Token.notes_cons, Token.notes_moved token _ token.start, noted]

theorem chain_append {tokens : List Token} {text : Text} {words others : List Word}
    {notes : List Text} (chain : Token.Chain tokens text)
    (fits : List.Forall₂ Word.Fits (Word.found [] tokens) words)
    (head : Word.Headless others) (tells : Tells text others notes) :
    Tells (Token.spell tokens ++ text) (words ++ others) (Token.notes tokens ++ notes) := by
  obtain ⟨more, tail, rfl, chainMore, blank, fitsMore, rfl⟩ := tells
  refine ⟨tokens ++ more, tail, by simp, Token.chain_append.mpr ⟨chain, chainMore⟩, blank, ?_,
    Token.notes_append tokens more⟩
  rw [Word.found_append]
  exact List.rel_append fits (Word.fits_of_pending _ _ head fitsMore)

/-- A token that is not a comment may be put in front of a text it is read before. -/
theorem word_append {kind : TokenKind} {word text : Text} {words : List Word} {notes : List Text}
    (reads : Token.ReadsAs kind word text) (code : kind.isComment = false)
    (head : Word.Headless words) (tells : Tells text words notes) :
    Tells (word ++ text) (⟨kind, word, none⟩ :: words) notes := by
  have single : Token.Chain [⟨kind, [], word, 0⟩] text :=
    ⟨fun _ listed => absurd listed List.not_mem_nil, by simpa using reads, trivial⟩
  have fits : List.Forall₂ Word.Fits (Word.found [] [⟨kind, [], word, 0⟩])
      [⟨kind, word, none⟩] := by
    simp only [Word.found, Token.isComment, code, Bool.false_eq_true, ↓reduceIte]
    exact .cons ⟨rfl, rfl, fun _ asked => by cases asked⟩ .nil
  have none : Token.notes [⟨kind, [], word, 0⟩] = [] := Token.notes_code code
  simpa [none] using chain_append single fits head tells

end Tells

/-- The line terminators that are written. -/
def Text.IsNewline (newline : Text) : Prop := newline = ['\n'] ∨ newline = ['\r', '\n']

theorem Text.isNewline_lineEnding (text : Text) : (Text.lineEnding text).IsNewline := by
  unfold lineEnding
  split
  · exact Or.inr rfl
  · exact Or.inl rfl

theorem Text.IsNewline.blank {newline : Text} (isNewline : newline.IsNewline) : newline.Blank := by
  intro c listed
  rcases isNewline with rfl | rfl
  · simp at listed
    subst listed
    decide
  · simp at listed
    rcases listed with rfl | rfl <;> decide

theorem Text.IsNewline.loose {newline : Text} (isNewline : newline.IsNewline) (text : Text) :
    Token.Loose (newline ++ text) := by
  rcases isNewline with rfl | rfl
  · exact Token.loose_cons (by decide) _
  · exact Token.loose_cons (by decide) _

namespace Token

/-- A line comment takes in a carriage return at the end of its line. -/
theorem ReadsAs.append_return {text rest other : Text} (reads : ReadsAs .lineComment text rest) :
    ReadsAs .lineComment (text ++ ['\r']) ('\n' :: other) := by
  obtain ⟨c, word, rfl, visible, read⟩ := reads
  obtain ⟨rfl, second, free⟩ := not_mem_of_lineComment read
  have start : '/' = '/' ∧ ((word ++ ['\r']) ++ '\n' :: other).head? = some '/' := by
    cases word with
    | nil => cases second
    | cons d word => exact ⟨rfl, second⟩
  refine ⟨'/', word ++ ['\r'], rfl, visible, ?_⟩
  rw [readToken_eq, if_pos start]
  refine (run_eq_iff _ _ _ _ _ _).mpr ⟨rfl, ?_, by simp⟩
  intro d listed
  rcases List.mem_append.mp listed with inside | last
  · have different : d ≠ '\n' := by
      rintro rfl
      exact free inside
    simpa using different
  · simp at last
    simp [last]

end Token

theorem Text.trimEnd_concat_return (text : Text) : (text ++ ['\r']).trimEnd = text.trimEnd := by
  simp [trimEnd, show isSpace '\r' = true by decide]

namespace Tells

/-- A chain of tokens may be put in front of a line terminator, whatever it stood before. -/
theorem chain_append_newline {tokens : List Token} {rest newline text : Text}
    {words others : List Word} {notes : List Text} (chain : Token.Chain tokens rest)
    (fits : List.Forall₂ Word.Fits (Word.found [] tokens) words) (isNewline : newline.IsNewline)
    (head : Word.Headless others) (tells : Tells (newline ++ text) others notes) :
    Tells (Token.spell tokens ++ (newline ++ text)) (words ++ others)
      (Token.notes tokens ++ notes) := by
  rcases List.eq_nil_or_concat tokens with rfl | ⟨front, last, rfl⟩
  · cases fits
    exact tells
  · rw [List.concat_eq_append] at *
    by_cases line : last.kind = .lineComment
    · obtain ⟨_, _, reads, _⟩ := Token.chain_append.mp chain
      rw [line] at reads
      rcases isNewline with rfl | rfl
      · refine chain_append (chain.swap ?_) fits head tells
        intro token isLast
        rw [List.getLast?_append, List.getLast?_singleton, Option.some_or] at isLast
        cases isLast
        rw [line]
        exact reads.lineComment (by simp)
      · -- the comment takes in the carriage return
        have blank : Text.Blank ['\r'] := by
          intro c listed
          simp at listed
          subst listed
          decide
        have remaining : Tells ('\n' :: text) others notes := of_blank_append blank head tells
        let longer : Token := { last with text := last.text ++ ['\r'] }
        have longerReads : Token.ReadsAs longer.kind longer.text ('\n' :: text) := by
          change Token.ReadsAs last.kind (last.text ++ ['\r']) ('\n' :: text)
          rw [line]
          exact reads.append_return
        obtain ⟨frontChain, space, _, _⟩ := Token.chain_append.mp chain
        have longerChain : Token.Chain (front ++ [longer]) ('\n' :: text) := by
          refine Token.chain_append.mpr ⟨?_, space, by simpa using longerReads, trivial⟩
          apply frontChain.swap
          intro token isLast
          obtain ⟨earlier, rfl⟩ := List.getLast?_eq_some_iff.mp isLast
          obtain ⟨_, _, tokenReads, _⟩ := Token.chain_append.mp frontChain
          refine tokenReads.congr_head? ?_
          obtain ⟨c, word, spelled, _⟩ := reads
          simp [longer, spelled, List.head?_append]
        have isComment : last.isComment = true := by
          simp [Token.isComment, line, TokenKind.isComment]
        have isCommentLonger : longer.isComment = true := isComment
        have longerFits : List.Forall₂ Word.Fits (Word.found [] (front ++ [longer])) words := by
          rw [Word.found_append] at fits ⊢
          simpa [Word.found, isComment, isCommentLonger] using fits
        have sameNote : Token.notes [longer] = Token.notes [last] := by
          rw [Token.notes_comment isComment, Token.notes_comment isCommentLonger]
          exact congrArg (fun note => [note]) (Text.trimEnd_concat_return last.text)
        have joined := chain_append longerChain longerFits head remaining
        rw [Token.notes_append, sameNote, ← Token.notes_append] at joined
        simpa [longer] using joined
    · refine chain_append (chain.swap ?_) fits head tells
      intro token isLast
      rw [List.getLast?_append, List.getLast?_singleton, Option.some_or] at isLast
      cases isLast
      obtain ⟨_, _, reads, _⟩ := Token.chain_append.mp chain
      exact reads.of_looser line ((isNewline.loose text).looser _)

end Tells

/-- A text that can stand where another one stood: it starts with the same character, or with a line
terminator. -/
def Text.Follows (text other : Text) : Prop :=
  text.head? = other.head? ∨ ∃ newline more, Text.IsNewline newline ∧ text = newline ++ more

theorem Text.Follows.refl (text : Text) : text.Follows text := Or.inl rfl

theorem Text.Follows.newline {newline : Text} (isNewline : newline.IsNewline) (more other : Text) :
    (newline ++ more).Follows other := Or.inr ⟨newline, more, isNewline, rfl⟩

theorem Text.Follows.append {left : Text} (nonempty : left ≠ []) (right other : Text) :
    (left ++ right).Follows (left ++ other) := by
  obtain ⟨c, rest, rfl⟩ := List.exists_cons_of_ne_nil nonempty
  exact Or.inl rfl

namespace Tells

/-- A chain of tokens may be put in front of a text that can stand where another one stood. -/
theorem chain_append_follows {tokens : List Token} {rest text : Text} {words others : List Word}
    {notes : List Text} (chain : Token.Chain tokens rest)
    (fits : List.Forall₂ Word.Fits (Word.found [] tokens) words) (follows : text.Follows rest)
    (head : Word.Headless others) (tells : Tells text others notes) :
    Tells (Token.spell tokens ++ text) (words ++ others) (Token.notes tokens ++ notes) := by
  rcases follows with same | ⟨newline, more, isNewline, rfl⟩
  · refine chain_append (chain.swap ?_) fits head tells
    intro token isLast
    obtain ⟨front, rfl⟩ := List.getLast?_eq_some_iff.mp isLast
    obtain ⟨_, _, reads, _⟩ := Token.chain_append.mp chain
    exact reads.congr_head? same
  · exact chain_append_newline chain fits isNewline head tells

end Tells

end JavaRecords
