import JavaRecords.Proofs.Code.Nesting
import JavaRecords.Proofs.Print.Header

set_option autoImplicit false

namespace JavaRecords

namespace Word

def token (word : Word) : Token := ⟨word.kind, [], word.text, 0⟩

def isPunct (word : Word) (c : Char) : Bool := word.token.isPunct c

/-- Whether a word is no parenthesis, brace, semicolon or equals sign. -/
def isPlain (word : Word) : Bool := word.token.isPlain

def nest (opened : List Char) (words : List Word) : Option (List Char) :=
  Token.nest opened (words.map token)

/-- Parentheses and braces are properly nested. -/
def Nested (words : List Word) : Prop := nest [] words = some []

instance (words : List Word) : Decidable (Nested words) :=
  inferInstanceAs (Decidable (nest [] words = some []))

theorem nest_append (opened : List Char) (left right : List Word) :
    nest opened (left ++ right) = (nest opened left).bind fun next => nest next right := by
  rw [nest, List.map_append, Token.nest_append]
  rfl

theorem Nested.nest {words : List Word} (nested : Nested words) (opened : List Char) :
    Word.nest opened words = some opened := Token.Nested.nest nested opened

theorem Nested.append {left right : List Word} (first : Nested left) (second : Nested right) :
    Nested (left ++ right) := by
  rw [Nested, nest_append, first]
  exact second

theorem nested_nil : Nested [] := rfl

theorem nested_flatten {parts : List (List Word)} (each : ∀ part ∈ parts, Nested part) :
    Nested parts.flatten := by
  induction parts with
  | nil => exact nested_nil
  | cons part parts ih =>
      exact (each part List.mem_cons_self).append
        (ih fun other listed => each other (List.mem_cons_of_mem _ listed))

theorem nested_of_plain {words : List Word} (plain : ∀ word ∈ words, word.isPlain = true) :
    Nested words := by
  refine Token.nested_of_plain fun token listed => ?_
  obtain ⟨word, among, rfl⟩ := List.mem_map.mp listed
  exact plain word among

theorem isPlain_name (text : Text) : (name text).isPlain = true := Token.isPlain_of_isIdent rfl

end Word

namespace Code

/-- A token is read as a word. -/
def Reads : List CodeToken → List Word → Prop :=
  List.Forall₂ fun code word => Word.Fits code.word word

theorem reads_iff {code : List CodeToken} {words : List Word} :
    Reads code words ↔ List.Forall₂ Word.Fits (code.map CodeToken.word) words :=
  List.forall₂_map_left_iff.symm

theorem Reads.append {code : List CodeToken} {left right : List Word}
    (reads : Reads code (left ++ right)) :
    ∃ front back, code = front ++ back ∧ Reads front left ∧ Reads back right := by
  induction left generalizing code with
  | nil => exact ⟨[], code, rfl, .nil, reads⟩
  | cons word left ih =>
      obtain ⟨first, rest, here, later, rfl⟩ := List.forall₂_cons_right_iff.mp reads
      obtain ⟨front, back, rfl, isFront, isBack⟩ := ih later
      exact ⟨first :: front, back, rfl, .cons here isFront, isBack⟩

theorem isPunct_of_fits {code : CodeToken} {word : Word} (fits : Word.Fits code.word word)
    (c : Char) :
    code.isPunct c = word.isPunct c := by
  have kind : code.token.kind = word.kind := fits.kind
  have text : code.token.text = word.text := fits.text
  rw [CodeToken.isPunct, Word.isPunct, Token.isPunct, Token.isPunct, Word.token, kind, text]

theorem Reads.head {code : List CodeToken} {word : Word} {words : List Word}
    (reads : Reads code (word :: words)) : ∃ first rest, code = first :: rest ∧
      first.token.kind = word.kind ∧ first.text = word.text ∧
      (∀ c, first.isPunct c = word.isPunct c) ∧ Reads rest words := by
  obtain ⟨first, rest, here, later, rfl⟩ := List.forall₂_cons_right_iff.mp reads
  exact ⟨first, rest, rfl, here.kind, here.text, isPunct_of_fits here, later⟩

theorem Reads.nest {code : List CodeToken} {words : List Word} (reads : Reads code words)
    (opened : List Char) : Token.nest opened (code.map CodeToken.token) =
      Word.nest opened words := by
  refine Token.nest_congr ?_ opened
  rw [List.forall₂_map_left_iff, List.forall₂_map_right_iff]
  exact reads.imp fun _ _ fits => ⟨fits.kind, fits.text⟩

theorem Reads.nested {code : List CodeToken} {words : List Word} (reads : Reads code words) :
    Token.Nested (code.map CodeToken.token) ↔ Word.Nested words := by
  rw [Token.Nested, Word.Nested, reads.nest]

theorem Reads.plain_iff {code : List CodeToken} {words : List Word} (reads : Reads code words) :
    (∀ token ∈ code, token.token.isPlain = true) ↔ ∀ word ∈ words, word.isPlain = true := by
  induction reads with
  | nil => simp
  | @cons first word rest words fits _ ih =>
      have punct : ∀ c, first.token.isPunct c = word.token.isPunct c := isPunct_of_fits fits
      have same : first.token.isPlain = word.isPlain := by
        simp only [Word.isPlain, Token.isPlain, punct]
      rw [List.forall_mem_cons, List.forall_mem_cons, ih, same]

theorem reads_words (code : List CodeToken) : Reads code (words code) := by
  cases code with
  | nil => exact .nil
  | cons first rest =>
      refine .cons ⟨rfl, rfl, fun _ asked => (by cases asked)⟩ ?_
      exact List.forall₂_map_right_iff.mpr (List.forall₂_same.mpr fun code _ => .refl _)

theorem Reads.same {left right : List CodeToken} {words : List Word} (reads : Reads left words)
    (readsOther : Reads right words) : List.Forall₂ (fun token other : Token =>
      token.kind = other.kind ∧ token.text = other.text)
        (left.map CodeToken.token) (right.map CodeToken.token) := by
  rw [List.forall₂_map_left_iff, List.forall₂_map_right_iff]
  induction reads generalizing right with
  | nil =>
      cases readsOther
      exact .nil
  | cons fits _ ih =>
      obtain ⟨other, others, fitsOther, later, rfl⟩ := List.forall₂_cons_right_iff.mp readsOther
      exact .cons ⟨fits.kind.trans fitsOther.kind.symm, fits.text.trans fitsOther.text.symm⟩
        (ih later)

end Code

end JavaRecords
