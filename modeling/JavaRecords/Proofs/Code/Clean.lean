import JavaRecords.Proofs.Code.Runs
import JavaRecords.Proofs.Parse.Header

set_option autoImplicit false

namespace JavaRecords

namespace Text

def words (text : Text) : List Word := Word.headless (Word.found [] (lexAll text).tokens)

def notes (text : Text) : List Text := Token.notes (lexAll text).tokens

def Clean (text : Text) : Prop :=
  ∃ tokens, text = Token.spell tokens ∧ ∀ other, Token.Loose other → Token.Chain tokens other

theorem words_spell {tokens : List Token} {space : Text} (chain : Token.Chain tokens space)
    (blank : space.Blank) :
    words (Token.spell tokens ++ space) = Word.headless (Word.found [] tokens) := by
  rw [words, lexAll, lexFrom_of_chain chain blank, Word.found_restart]

theorem notes_spell {tokens : List Token} {space : Text} (chain : Token.Chain tokens space)
    (blank : space.Blank) : notes (Token.spell tokens ++ space) = Token.notes tokens := by
  rw [notes, lexAll, lexFrom_of_chain chain blank, Token.notes_restart]

theorem blank_nil : Blank [] := fun _ listed => absurd listed List.not_mem_nil

@[simp] theorem words_nil : words [] = [] :=
  words_spell (show Token.Chain [] [] from trivial) blank_nil

theorem clean_nil : Clean [] := ⟨[], rfl, fun _ _ => trivial⟩

theorem Clean.tells_append {text other : Text} {others : List Word} {notes : List Text}
    (clean : text.Clean) (loose : Token.Loose other) (head : Word.Headless others)
    (tells : Tells other others notes) :
    Tells (text ++ other) (text.words ++ others) (text.notes ++ notes) := by
  obtain ⟨tokens, rfl, chain⟩ := clean
  have alone := words_spell (chain [] Token.loose_nil) blank_nil
  have noted := notes_spell (chain [] Token.loose_nil) blank_nil
  rw [List.append_nil] at alone noted
  rw [alone, noted]
  exact .chain_append (chain other loose) (Word.fits_headless _) head tells

theorem headless_words (text : Text) : Word.Headless text.words := Word.headless_headless _

theorem loose_append {left right : Text} (first : Token.Loose left) (second : Token.Loose right) :
    Token.Loose (left ++ right) := by
  cases left with
  | nil => exact second
  | cons c rest => exact first

theorem Clean.append {left right : Text} (first : left.Clean) (second : right.Clean)
    (loose : Token.Loose right) : (left ++ right).Clean := by
  obtain ⟨tokens, rfl, chain⟩ := first
  obtain ⟨others, rfl, chainOthers⟩ := second
  refine ⟨tokens ++ others, by simp, fun other looseOther => ?_⟩
  exact Token.chain_append.mpr
    ⟨chain _ (loose_append loose looseOther), chainOthers other looseOther⟩

end Text

namespace Token

theorem looser_cons {c d : Char}
    (implied : extenders.all (fun test => !test c || test d) = true) (text other : Text) :
    Looser (c :: text) (d :: other) := by
  intro test listed met
  have here := List.all_eq_true.mp implied test listed
  have isMet : test c = true := by simpa using met
  rw [isMet] at here
  simpa using here

/-- A character that is read as an operator or separator whatever follows it. -/
def isMark (c : Char) : Bool :=
  !Text.isSpace c && c != '/' && c != '"' && c != '\'' && c != '.' && !Text.isDigit c
    && !isIdentStart c

theorem readsAs_mark {c : Char} (mark : isMark c = true) (rest : Text) :
    ReadsAs .punct [c] rest := by
  simp only [isMark, Bool.and_eq_true, Bool.not_eq_true', bne_iff_ne] at mark
  obtain ⟨⟨⟨⟨⟨⟨visible, slash⟩, quote⟩, single⟩, dot⟩, digit⟩, start⟩ := mark
  refine ⟨c, [], rfl, visible, ?_⟩
  rw [readToken_eq]
  simp [slash, quote, single, dot, digit, start]

end Token

theorem Text.clean_mark {c : Char} (mark : Token.isMark c = true) : Text.Clean [c] := by
  refine ⟨[⟨.punct, [], [c], 0⟩], rfl, fun other _ => ⟨Text.blank_nil, ?_, trivial⟩⟩
  exact Token.readsAs_mark mark _

namespace Code

/-- The text of a run of tokens is clean, and has the words of the run. -/
theorem clean_text {code : List CodeToken} {tail : Text} (chain : Token.Chain (run code) tail)
    (bound : Bound code) : (text code).Clean :=
  ⟨run code, (spell_run code).symm, fun _ loose => chain_run_of_loose chain bound loose⟩

/-- The words of a run that is read by itself. -/
theorem headless_found_run {code : List CodeToken} (bound : Bound code) :
    Word.headless (Word.found [] (run code)) = words code := by
  cases code with
  | nil => rfl
  | cons first rest =>
      obtain ⟨here, later⟩ := Bound.cons.mp bound
      rw [run, Word.found, if_neg (by simpa [Token.isComment] using here.token), found_flat later]
      rfl

theorem words_text {code : List CodeToken} {tail : Text} (chain : Token.Chain (run code) tail)
    (bound : Bound code) : (text code).words = words code := by
  have alone := Text.words_spell (chain_run_of_loose chain bound Token.loose_nil) Text.blank_nil
  rw [List.append_nil, spell_run] at alone
  rw [alone, headless_found_run bound]

theorem Bound.of_infix {code part : List CodeToken} (bound : Bound code) (inside : part <:+: code) :
    Bound part := fun token listed => bound token (inside.subset listed)

theorem chain_of_infix {code part : List CodeToken} {tail : Text}
    (chain : Token.Chain (flat code) tail) (inside : part <:+: code) :
    ∃ rest, Token.Chain (flat part) rest := by
  obtain ⟨before, after, rfl⟩ := inside
  rw [flat_append, flat_append, List.append_assoc, Token.chain_append, Token.chain_append] at chain
  exact ⟨_, chain.2.1⟩

/-- A run of code can be written in front of other text. -/
theorem clean_of_infix {code part : List CodeToken} {tail : Text}
    (chain : Token.Chain (flat code) tail) (bound : Bound code) (inside : part <:+: code) :
    (text part).Clean := by
  obtain ⟨rest, chainPart⟩ := chain_of_infix chain inside
  exact clean_text (chain_run chainPart) (bound.of_infix inside)

theorem clean_withDims {ty : Text} (clean : ty.Clean) (dims : Nat) : (withDims ty dims).Clean := by
  have brackets : Text.Clean (List.replicate dims ['[', ']']).flatten ∧
      Token.Loose (List.replicate dims ['[', ']']).flatten := by
    induction dims with
    | zero => exact ⟨Text.clean_nil, Token.loose_nil⟩
    | succ dims ih =>
        rw [List.replicate_succ, List.flatten_cons]
        refine ⟨?_, Token.loose_cons (by decide) _⟩
        have pair : Text.Clean ['[', ']'] :=
          (Text.clean_mark (c := '[') (by decide)).append (Text.clean_mark (c := ']') (by decide))
            (Token.loose_cons (by decide) _)
        exact pair.append ih.1 ih.2
  exact clean.append brackets.1 brackets.2

theorem chain_cut {tokens : List Token} {space rest : Text}
    (chain : Token.Chain tokens (space ++ rest)) : Token.Chain tokens space := by
  apply chain.swap
  intro token isLast
  obtain ⟨front, rfl⟩ := List.getLast?_eq_some_iff.mp isLast
  obtain ⟨_, _, reads, _⟩ := Token.chain_append.mp chain
  cases space with
  | cons c space => exact reads.congr_head? rfl
  | nil =>
      by_cases line : token.kind = .lineComment
      · rw [line] at reads ⊢
        exact reads.lineComment rfl
      · exact reads.of_looser line (Token.loose_nil.looser _)

def modifierTokens (taken : List CodeToken) (keyword : CodeToken) : List Token :=
  if taken.isEmpty then [] else run taken ++ keyword.comments

/-- The text of a class from its first modifier up to its keyword is read as in the source in front
of the keyword of a record, and by itself. -/
theorem exists_headerPrefix {taken : List CodeToken} {keyword : CodeToken} {tail : Text}
    (chain : Token.Chain (flat (taken ++ [keyword])) tail)
    (isClass : keyword.isWord "class" = true) :
    ∃ space : Text, space.Blank ∧
      headerPrefix taken (some keyword) = Token.spell (modifierTokens taken keyword) ++ space ∧
      Token.Chain (modifierTokens taken keyword) space ∧
      ∀ more, Token.Chain (modifierTokens taken keyword) (space ++ ("record".toList ++ more)) := by
  cases taken with
  | nil => exact ⟨[], Text.blank_nil, rfl, trivial, fun _ => trivial⟩
  | cons first rest =>
      let front := modifierTokens (first :: rest) keyword
      have isText : keyword.token.text = "class".toList := by
        have word := isClass
        simp only [CodeToken.isWord, Token.isWord, Bool.and_eq_true, beq_iff_eq] at word
        exact word.2
      have keywordFlat : flat [keyword] = keyword.comments ++ [keyword.token] := by simp
      rw [flat_append, keywordFlat, Token.chain_append, Token.chain_append] at chain
      obtain ⟨chainTaken, chainComments, blank, _, _⟩ := chain
      have inSource : Token.Chain front (keyword.token.space ++ ("class".toList ++ tail)) := by
        refine Token.chain_append.mpr ⟨?_, ?_⟩
        · simpa [isText] using chain_run chainTaken
        · simpa [isText] using chainComments
      refine ⟨keyword.token.space, blank, ?_, chain_cut inSource, ?_⟩
      · simp [headerPrefix, modifierTokens, CodeToken.lead]
      · intro more
        apply inSource.swap
        intro token isLast
        obtain ⟨earlier, split⟩ := List.getLast?_eq_some_iff.mp isLast
        have whole := inSource
        rw [split, Token.chain_append] at whole
        obtain ⟨_, _, reads, _⟩ := whole
        cases same : keyword.token.space with
        | cons c space =>
            rw [same] at reads
            exact reads.congr_head? rfl
        | nil =>
            rw [same] at reads
            have noLine : token.kind ≠ .lineComment := by
              intro line
              rw [line] at reads
              have ended := reads.line_ended
              simp at ended
            exact reads.of_looser noLine (Token.looser_cons (by decide) _ _)

/-- The text of a class from its first modifier on has the words and notes of the modifiers, and may
be put in front of the keyword of a record. -/
theorem tells_headerPrefix {taken : List CodeToken} {keyword : CodeToken} {tail more : Text}
    {others : List Word} {notes : List Text}
    (chain : Token.Chain (flat (taken ++ [keyword])) tail)
    (isClass : keyword.isWord "class" = true)
    (head : Word.Headless others) (tells : Tells ("record".toList ++ more) others notes) :
    Tells (headerPrefix taken (some keyword) ++ ("record".toList ++ more))
      ((headerPrefix taken (some keyword)).words ++ others)
      ((headerPrefix taken (some keyword)).notes ++ notes) := by
  obtain ⟨space, blank, same, alone, inRecord⟩ := exists_headerPrefix chain isClass
  rw [same, Text.words_spell alone blank, Text.notes_spell alone blank, List.append_assoc]
  exact .chain_append (inRecord more) (Word.fits_headless _) head (.blank_append blank head tells)

end Code

end JavaRecords
