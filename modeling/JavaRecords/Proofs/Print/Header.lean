import JavaRecords.Print
import JavaRecords.Proofs.Code.Clean
import JavaRecords.Proofs.Parse.Tiling

set_option autoImplicit false

namespace JavaRecords

/-- A comment that was read from a source. -/
def Comment.Readable (comment : Comment) : Prop :=
  ∃ kind rest, kind.isComment = true ∧ Token.ReadsAs kind comment.text rest

def Comment.note (comment : Comment) : Text := comment.text.trimEnd

theorem Comment.map_note_ofToken {comments : List Token}
    (all : ∀ comment ∈ comments, comment.isComment = true) :
    (comments.map Comment.ofToken).map Comment.note = Token.notes comments := by
  rw [Token.notes, List.filter_eq_self.mpr all, List.map_map]
  rfl

namespace Tells

variable {newline indent text : Text} {words : List Word} {notes : List Text}

/-- A comment in front of a line terminator. -/
theorem readable_append {comment : Comment} (readable : comment.Readable)
    (isNewline : newline.IsNewline) (head : Word.Headless words)
    (tells : Tells (newline ++ text) words notes) :
    Tells (comment.text ++ (newline ++ text)) words (comment.note :: notes) := by
  obtain ⟨kind, rest, isComment, reads⟩ := readable
  have single : Token.Chain [⟨kind, [], comment.text, 0⟩] rest :=
    ⟨Text.blank_nil, by simpa using reads, trivial⟩
  have fits : List.Forall₂ Word.Fits (Word.found [] [⟨kind, [], comment.text, 0⟩]) [] := by
    simp only [Word.found, Token.isComment, isComment, ↓reduceIte]
    exact .nil
  have noted : Token.notes [⟨kind, [], comment.text, 0⟩] = [comment.note] :=
    Token.notes_comment isComment
  have joined := chain_append_newline single fits isNewline head tells
  rw [noted] at joined
  simpa using joined

theorem commentLines_append {comments : List Comment}
    (readable : ∀ comment ∈ comments, comment.Readable) (blank : indent.Blank)
    (isNewline : newline.IsNewline) (head : Word.Headless words) (tells : Tells text words notes) :
    Tells (SyntaxTree.commentLines indent newline comments ++ text) words
      (comments.map Comment.note ++ notes) := by
  induction comments with
  | nil => exact tells
  | cons comment rest ih =>
      have later := ih fun other listed => readable other (List.mem_cons_of_mem _ listed)
      have broken := blank_append isNewline.blank head later
      have here := readable_append (readable comment List.mem_cons_self) isNewline head broken
      have whole := blank_append blank head here
      simpa [SyntaxTree.commentLines] using whole

/-- Comments after line terminators, in front of a line terminator. -/
theorem dangling_append {comments : List Comment}
    (readable : ∀ comment ∈ comments, comment.Readable) (blank : indent.Blank)
    (isNewline : newline.IsNewline) (head : Word.Headless words)
    (tells : Tells (newline ++ text) words notes) :
    ∃ more, (comments.flatMap fun comment => newline ++ indent ++ comment.text) ++
      (newline ++ text) =
      newline ++ more ∧ Tells (newline ++ more) words (comments.map Comment.note ++ notes) := by
  induction comments with
  | nil => exact ⟨text, rfl, tells⟩
  | cons comment rest ih =>
      obtain ⟨more, joined, later⟩ := ih fun other listed =>
        readable other (List.mem_cons_of_mem _ listed)
      have here := readable_append (readable comment List.mem_cons_self) isNewline head later
      refine ⟨indent ++ (comment.text ++ (newline ++ more)), ?_,
        blank_append isNewline.blank head (blank_append blank head here)⟩
      rw [List.flatMap_cons, List.append_assoc, joined]
      simp only [List.append_assoc]

end Tells

namespace Token

/-- A comment after something on its line. -/
def respaced (comment : Token) : Token := { comment with space := [' '] }

theorem blank_space : Text.Blank [' '] := by
  intro c listed
  rw [List.mem_singleton.mp listed]
  decide

/-- Comments on the line where a token ends stay comments if the blank text between them changes:
only the last of them can run to the end of the line. -/
theorem chain_respaced {comments : List Token} {rest : Text}
    (all : ∀ comment ∈ comments, comment.isComment = true)
    (chain : Chain (Code.sameLine comments) rest) :
    Chain ((Code.sameLine comments).map respaced) rest := by
  induction comments with
  | nil => trivial
  | cons comment others ih =>
      rw [Code.sameLine] at chain ⊢
      split
      · trivial
      · rename_i sameLine
        rw [if_neg sameLine] at chain
        by_cases line : (comment.kind == .lineComment) = true
        · rw [if_pos line] at chain ⊢
          exact ⟨blank_space, chain.2.1, trivial⟩
        · rw [if_neg line] at chain ⊢
          obtain ⟨_, reads, later⟩ := chain
          refine ⟨blank_space, ?_,
            ih (fun other listed => all other (List.mem_cons_of_mem _ listed)) later⟩
          refine reads.blockComment ?_ _
          have isComment := all comment List.mem_cons_self
          unfold Token.isComment TokenKind.isComment at isComment
          cases kind : comment.kind <;> simp_all

theorem found_of_all {comments : List Token} (all : ∀ comment ∈ comments, comment.isComment = true)
    (before : Text) : Word.found before comments = [] := by
  have found := CodeToken.found_of_comments all before []
  rw [List.append_nil] at found
  rw [found]
  rfl

end Token

theorem commentTail_eq (comments : List Token) :
    SyntaxTree.commentTail (comments.map Comment.ofToken) =
      Token.spell (comments.map Token.respaced) := by
  induction comments with
  | nil => rfl
  | cons comment rest ih =>
      rw [List.map_cons, List.map_cons, SyntaxTree.commentTail, List.flatMap_cons,
        Token.spell_cons, ← ih]
      rfl

theorem Token.notes_respaced (comments : List Token) :
    notes (comments.map respaced) = notes comments := by
  induction comments with
  | nil => rfl
  | cons comment rest ih =>
      rw [List.map_cons, notes_cons, ih, notes_cons comment rest, respaced,
        notes_moved comment _ comment.start]

/-- Comments after a declaration on its line, in front of what can stand after them. -/
theorem Tells.commentTail_append {comments : List Token} {rest text : Text} {words : List Word}
    {notes : List Text} (all : ∀ comment ∈ comments, comment.isComment = true)
    (chain : Token.Chain (Code.sameLine comments) rest) (follows : text.Follows rest)
    (head : Word.Headless words) (tells : Tells text words notes) :
    Tells (SyntaxTree.commentTail ((Code.sameLine comments).map Comment.ofToken) ++ text)
      words (Token.notes (Code.sameLine comments) ++ notes) := by
  have isComment : ∀ comment ∈ (Code.sameLine comments).map Token.respaced,
      comment.isComment = true := by
    intro comment listed
    obtain ⟨token, inside, rfl⟩ := List.mem_map.mp listed
    exact all token ((Code.sameLine_prefix comments).subset inside)
  have fits : List.Forall₂ Word.Fits
      (Word.found [] ((Code.sameLine comments).map Token.respaced)) [] := by
    rw [Token.found_of_all isComment]
    exact .nil
  rw [commentTail_eq, ← Token.notes_respaced]
  exact .chain_append_follows (Token.chain_respaced all chain) fits follows head tells

/-- An operator or separator. -/
def Word.mark (c : Char) : Word := ⟨.punct, [c], none⟩

/-- An identifier or keyword. -/
def Word.name (text : Text) : Word := ⟨.ident, text, none⟩

@[simp] theorem Word.text_mark (c : Char) : (Word.mark c).text = [c] := rfl

@[simp] theorem Word.text_name (text : Text) : (Word.name text).text = text := rfl

def RecordComponent.words (component : RecordComponent) : List Word :=
  component.annotations.flatMap Text.words ++ component.ty.words ++ [Word.name component.name]

def RecordComponent.notes (component : RecordComponent) : List Text :=
  component.annotations.flatMap Text.notes ++ component.ty.notes

def RecordDecl.clause (record : RecordDecl) : Text :=
  (record.interfaces.map fun interfaces => " implements ".toList ++ interfaces).getD []

def RecordDecl.clauseWords (record : RecordDecl) : List Word :=
  (record.interfaces.map fun interfaces =>
    Word.name "implements".toList :: Text.words interfaces).getD []

theorem SyntaxTree.recordHeader_eq (record : RecordDecl) :
    recordHeader record = record.indent ++ (record.headerPrefix ++ ("record".toList ++ (' ' ::
      (record.name ++ (record.typeParams.getD [] ++ ('(' ::
        (Text.join [',', ' '] (record.components.map RecordComponent.render) ++ (')' ::
          (record.clause ++ [' ', '{']))))))))) := by
  unfold recordHeader RecordDecl.clause
  cases record.interfaces <;> simp

def RecordDecl.headerWords (record : RecordDecl) : List Word :=
  record.headerPrefix.words ++ Word.name "record".toList :: Word.name record.name ::
    ((record.typeParams.getD []).words ++ Word.mark '(' ::
      (List.intercalate [Word.mark ','] (record.components.map RecordComponent.words) ++
        Word.mark ')' :: (record.clauseWords ++ [Word.mark '{'])))

def RecordDecl.headerNotes (record : RecordDecl) : List Text :=
  record.headerPrefix.notes ++ ((record.typeParams.getD []).notes ++
    (record.components.flatMap RecordComponent.notes ++
      ((record.interfaces.map Text.notes).getD [])))

def Text.IsName (text : Text) : Prop :=
  ∀ rest, Token.Loose rest → Token.ReadsAs .ident text rest

structure RecordComponent.Clean (component : RecordComponent) : Prop where
  annotations : ∀ written ∈ component.annotations, Text.Clean written
  ty : component.ty.Clean
  name : component.name.IsName

/-- A record whose header is made of texts that are read alone as they are read there. -/
structure RecordDecl.Clean (record : RecordDecl) : Prop where
  indent : record.indent.Blank
  headerPrefix : ∀ more others notes, Word.Headless others →
    Tells ("record".toList ++ more) others notes →
    Tells (record.headerPrefix ++ ("record".toList ++ more)) (record.headerPrefix.words ++ others)
      (record.headerPrefix.notes ++ notes)
  name : record.name.IsName
  typeParams : (record.typeParams.getD []).Clean ∧ Token.Loose (record.typeParams.getD [])
  components : ∀ component ∈ record.components, component.Clean
  interfaces : ∀ interfaces, record.interfaces = some interfaces → Text.Clean interfaces

theorem Word.headless_mark (c : Char) (rest : List Word) : Word.Headless (Word.mark c :: rest) :=
  Word.headless_cons _ _ _

theorem Word.headless_name (text : Text) (rest : List Word) :
    Word.Headless (Word.name text :: rest) := Word.headless_cons _ _ _

theorem Text.isName_of_keyword {c : Char} {word : Text} (start : Token.isIdentStart c = true)
    (visible : Text.isSpace c = false) (digit : Text.isDigit c = false)
    (parts : word.all Token.isIdentPart = true) : Text.IsName (c :: word) := by
  intro rest loose
  obtain ⟨slash, quote, single, dot⟩ := Token.plain_of_identStart start
  have ended := loose Token.isIdentPart Token.mem_extenders_isIdentPart
  refine ⟨c, word, rfl, visible, ?_⟩
  rw [Token.readToken_eq]
  simp only [slash, quote, single, digit, start, false_and, ↓reduceIte, Bool.false_or,
    beq_eq_false_iff_ne.mpr dot, Bool.false_and, Bool.false_eq_true]
  exact (Token.run_eq_iff _ _ _ _ _ _).mpr ⟨rfl, by simpa using parts, ended⟩

theorem Word.headless_flatMap_words (texts : List Text) :
    Word.Headless (texts.flatMap Text.words) := by
  induction texts with
  | nil => exact Word.headless_nil
  | cons text rest ih => exact (Text.headless_words text).append ih

theorem RecordComponent.headless_words (component : RecordComponent) :
    Word.Headless component.words :=
  ((Word.headless_flatMap_words _).append (Text.headless_words _)).append (Word.headless_name _ _)

namespace Tells

variable {text : Text} {words : List Word} {notes : List Text}

theorem mark_append {c : Char} (mark : Token.isMark c = true) (head : Word.Headless words)
    (tells : Tells text words notes) : Tells (c :: text) (Word.mark c :: words) notes :=
  word_append (Token.readsAs_mark mark text) rfl head tells

theorem name_append {name : Text} (isName : name.IsName) (loose : Token.Loose text)
    (head : Word.Headless words) (tells : Tells text words notes) :
    Tells (name ++ text) (Word.name name :: words) notes :=
  word_append (isName text loose) rfl head tells

theorem space_append (head : Word.Headless words) (tells : Tells text words notes) :
    Tells (' ' :: text) words notes :=
  blank_append Token.blank_space head tells

theorem loose_space (text : Text) : Token.Loose (' ' :: text) := Token.loose_cons (by decide) _

theorem annotations_append {annotations : List Text}
    (clean : ∀ written ∈ annotations, Text.Clean written) (head : Word.Headless words)
    (tells : Tells text words notes) :
    Tells ((annotations.flatMap fun written => written ++ [' ']) ++ text)
      (annotations.flatMap Text.words ++ words) (annotations.flatMap Text.notes ++ notes) := by
  induction annotations with
  | nil => exact tells
  | cons written rest ih =>
      have later := ih fun other listed => clean other (List.mem_cons_of_mem _ listed)
      have headLater := (Word.headless_flatMap_words rest).append head
      have here := (clean written List.mem_cons_self).tells_append (loose_space _) headLater
        (space_append headLater later)
      simpa using here

theorem component_append {component : RecordComponent} (clean : component.Clean)
    (loose : Token.Loose text) (head : Word.Headless words) (tells : Tells text words notes) :
    Tells (component.render ++ text) (component.words ++ words) (component.notes ++ notes) := by
  have headName := Word.headless_name component.name words
  have named := name_append clean.name loose head tells
  have typed := clean.ty.tells_append (loose_space _) headName (space_append headName named)
  have whole := annotations_append clean.annotations
    ((Text.headless_words component.ty).append headName) typed
  simpa [RecordComponent.render, RecordComponent.words, RecordComponent.notes] using whole

theorem components_append {components : List RecordComponent}
    (clean : ∀ component ∈ components, component.Clean) (loose : Token.Loose text)
    (head : Word.Headless words) (tells : Tells text words notes) :
    Tells (Text.join [',', ' '] (components.map RecordComponent.render) ++ text)
        (List.intercalate [Word.mark ','] (components.map RecordComponent.words) ++ words)
        (components.flatMap RecordComponent.notes ++ notes) ∧
      Word.Headless (List.intercalate [Word.mark ','] (components.map RecordComponent.words)
        ++ words) := by
  induction components with
  | nil => exact ⟨by simpa [Text.join] using tells, by simpa using head⟩
  | cons component rest ih =>
      have own := clean component List.mem_cons_self
      cases rest with
      | nil =>
          refine ⟨by simpa [Text.join] using component_append own loose head tells, ?_⟩
          simpa using component.headless_words.append head
      | cons next rest =>
          obtain ⟨later, headLater⟩ := ih fun other listed =>
            clean other (List.mem_cons_of_mem _ listed)
          have comma := mark_append (c := ',') (by decide) headLater (space_append headLater later)
          have whole := component_append own (Token.loose_cons (by decide) _)
            (Word.headless_mark _ _) comma
          rw [List.map_cons, List.map_cons, List.map_cons, List.map_cons,
            List.intercalate_cons_cons, List.flatMap_cons, Text.join]
          simp only [List.append_assoc, List.cons_append, List.nil_append]
          · exact ⟨whole, component.headless_words.append (Word.headless_mark _ _)⟩
          · simp

theorem clause_append {record : RecordDecl} (clean : record.Clean) (head : Word.Headless words)
    (tells : Tells text words notes) :
    Tells (record.clause ++ (' ' :: '{' :: text)) (record.clauseWords ++ Word.mark '{' :: words)
      ((record.interfaces.map Text.notes).getD [] ++ notes) := by
  have brace := mark_append (c := '{') (by decide) head tells
  have spaced := space_append (Word.headless_mark _ _) brace
  unfold RecordDecl.clause RecordDecl.clauseWords
  cases same : record.interfaces with
  | none => exact spaced
  | some interfaces =>
      have listed := (clean.interfaces interfaces same).tells_append (loose_space _)
        (Word.headless_mark _ _) spaced
      have headListed := (Text.headless_words interfaces).append (Word.headless_mark '{' words)
      have isName : Text.IsName "implements".toList :=
        Text.isName_of_keyword (by decide) (by decide) (by decide) (by decide)
      have named := name_append isName (loose_space _) headListed (space_append headListed listed)
      have whole := space_append (Word.headless_name _ _) named
      simpa using whole

theorem recordHeader_append {record : RecordDecl} (clean : record.Clean)
    (head : Word.Headless words) (tells : Tells text words notes) :
    Tells (SyntaxTree.recordHeader record ++ text) (record.headerWords ++ words)
      (record.headerNotes ++ notes) := by
  have clause := clause_append clean head tells
  have headClause : Word.Headless (record.clauseWords ++ Word.mark '{' :: words) := by
    unfold RecordDecl.clauseWords
    cases record.interfaces with
    | none => exact Word.headless_mark _ _
    | some interfaces => exact Word.headless_name _ _
  have closed := mark_append (c := ')') (by decide) headClause clause
  obtain ⟨inside, headInside⟩ := components_append clean.components (Token.loose_cons (by decide) _)
    (Word.headless_mark _ _) closed
  have opened := mark_append (c := '(') (by decide) headInside inside
  have params := clean.typeParams.1.tells_append (Token.loose_cons (by decide) _)
    (Word.headless_mark _ _) opened
  have named := name_append clean.name (Text.loose_append clean.typeParams.2
    (Token.loose_cons (by decide) _)) ((Text.headless_words _).append (Word.headless_mark _ _))
      params
  have isName : Text.IsName "record".toList :=
    Text.isName_of_keyword (by decide) (by decide) (by decide) (by decide)
  have keyword := name_append isName (loose_space _) (Word.headless_name _ _)
    (space_append (Word.headless_name _ _) named)
  have modified := clean.headerPrefix _ _ _ (Word.headless_name _ _) keyword
  have whole := blank_append clean.indent
    ((Text.headless_words record.headerPrefix).append (Word.headless_name _ _)) modified
  rw [SyntaxTree.recordHeader_eq, RecordDecl.headerWords, RecordDecl.headerNotes]
  simpa only [List.append_assoc, List.cons_append, List.nil_append] using whole

end Tells

end JavaRecords
