import JavaRecords.Span
import JavaRecords.Text.Basic

set_option autoImplicit false

namespace JavaRecords

/-- What a token is. Operators and separators are `punct`, one character each. -/
inductive TokenKind where
  | ident
  | number
  | stringLiteral
  | textBlock
  | charLiteral
  | lineComment
  | blockComment
  | docComment
  | punct
  deriving DecidableEq, Repr

def TokenKind.isComment : TokenKind → Bool
  | .lineComment | .blockComment | .docComment => true
  | _ => false

/-- A token of a source text, after the blank text that was skipped before it. Comments are tokens.
-/
structure Token where
  kind : TokenKind
  /-- The blank text between the previous token and this one. -/
  space : Text
  /-- The token as written. -/
  text : Text
  /-- The byte offset of the first character of `text`. -/
  start : Nat
  deriving DecidableEq, Repr

namespace Token

def stop (token : Token) : Nat := token.start + Text.byteSize token.text

def span (token : Token) : Span := ⟨token.start, token.stop⟩

theorem start_le_stop (token : Token) : token.start ≤ token.stop := Nat.le_add_right _ _

def isComment (token : Token) : Bool := token.kind.isComment

def isPunct (token : Token) (c : Char) : Bool := token.kind == .punct && token.text == [c]

def isIdent (token : Token) : Bool := token.kind == .ident

def isWord (token : Token) (word : Text) : Bool := token.kind == .ident && token.text == word

def spell : List Token → Text
  | [] => []
  | token :: rest => token.space ++ token.text ++ spell rest

@[simp] theorem spell_nil : spell [] = [] := rfl

@[simp] theorem spell_cons (token : Token) (rest : List Token) :
    spell (token :: rest) = token.space ++ token.text ++ spell rest := rfl

@[simp] theorem spell_append (left right : List Token) :
    spell (left ++ right) = spell left ++ spell right := by
  induction left with
  | nil => rfl
  | cons token rest ih => simp [ih]

end Token

/-- The forms of token that need a closing mark. -/
inductive Unterminated where
  | comment
  | string
  | textBlock
  | charLiteral
  deriving DecidableEq, Repr

/-- The characters that open a form. -/
def Unterminated.opener : Unterminated → Text
  | .comment => ['/', '*']
  | .string => ['"']
  | .textBlock => ['"', '"', '"']
  | .charLiteral => ['\'']

/-- A token that is opened at a byte offset and never closed. -/
structure LexError where
  form : Unterminated
  offset : Nat
  deriving DecidableEq, Repr

def LexError.message (error : LexError) : String :=
  let form := match error.form with
    | .comment => "block comment"
    | .string => "string literal"
    | .textBlock => "text block"
    | .charLiteral => "character literal"
  s!"unterminated {form} starting at offset {error.offset}"

end JavaRecords
