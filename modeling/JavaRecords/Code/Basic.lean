import JavaRecords.Code.AssignOp
import JavaRecords.Token.Lexer

set_option autoImplicit false

namespace JavaRecords

/-- Whether no character stands between two tokens. -/
def Token.touches (left right : Token) : Bool := left.stop == right.start

/-- How many tokens `c`, each touching the next and the last one touching `token`, stand directly
before `token`. The tokens before are given from right to left. -/
def Token.touchingRun (c : Char) (token : Token) : List Token → Nat
  | [] => 0
  | previous :: earlier =>
      if previous.isPunct c && previous.touches token then touchingRun c previous earlier + 1
      else 0

/-- The operator that ends in a token `=`, if `previous` touches it: none if the two are part of a
comparison. -/
def Token.assignAfterPunct (previous : Token) (earlier : List Token) : Option AssignOp :=
  match previous.text with
  | ['='] | ['!'] => none
  | ['<'] => if touchingRun '<' previous earlier ≥ 1 then some .shl else none
  | ['>'] =>
      match touchingRun '>' previous earlier with
      | 1 => some .shr
      | 2 => some .ushr
      | _ => none
  | [c] => some ((AssignOp.ofPunct? c).getD .assign)
  | _ => some .assign

/-- The assignment operator that `token` ends, from the code tokens before it (from right to left)
and after it. -/
def Token.assignOp? (before : List Token) (token : Token) (after : List Token) : Option AssignOp :=
  if !token.isPunct '=' then none
  else if after.head?.any fun next => next.isPunct '=' && token.touches next then none
  else match before with
    | [] => some .assign
    | previous :: earlier =>
        if previous.kind == .punct && previous.touches token then
          assignAfterPunct previous earlier
        else some .assign

def Token.endsArrow (before : List Token) (token : Token) : Bool :=
  token.isPunct '>' && before.head?.any fun previous =>
    previous.isPunct '-' && previous.touches token

/-- A token that is not a comment, with the comments between it and the code token before it, so
that a run of code tokens still spells its source. A token `=` carries the assignment operator that
it ends, and a token `>` says whether it ends an arrow. -/
structure CodeToken where
  token : Token
  /-- The comments between the code token before and this one. -/
  comments : List Token
  /-- The assignment operator that this token ends. -/
  assign : Option AssignOp
  /-- Whether this token ends an arrow. -/
  arrow : Bool
  deriving DecidableEq, Repr

namespace CodeToken

def text (code : CodeToken) : Text := code.token.text

def start (code : CodeToken) : Nat := code.token.start

def stop (code : CodeToken) : Nat := code.token.stop

def isPunct (code : CodeToken) (c : Char) : Bool := code.token.isPunct c

def isIdent (code : CodeToken) : Bool := code.token.isIdent

def isWord (code : CodeToken) (word : String) : Bool := code.token.isWord word.toList

/-- The comments and blank text between the code token before and this one. -/
def lead (code : CodeToken) : Text := Token.spell code.comments ++ code.token.space

def increment? (first second : CodeToken) : Option AssignOp :=
  if first.token.touches second.token then
    if first.isPunct '+' && second.isPunct '+' then some .increment
    else if first.isPunct '-' && second.isPunct '-' then some .decrement
    else none
  else none

end CodeToken

namespace Code

/-- Splits tokens into code tokens, each with the comments before it, and the comments after the
last one. `pending` are the comments already met. -/
def bindComments (pending : List Token) : List Token → List (List Token × Token) × List Token
  | [] => ([], pending)
  | token :: rest =>
      if token.isComment then bindComments (pending ++ [token]) rest
      else
        let (bound, tail) := bindComments [] rest
        ((pending, token) :: bound, tail)

/-- Recognises operators. `before` are the code tokens already met, from right to left. -/
def markOperators (before : List Token) : List (List Token × Token) → List CodeToken
  | [] => []
  | (comments, token) :: rest =>
      { token
        comments
        assign := token.assignOp? before (rest.map Prod.snd)
        arrow := token.endsArrow before } :: markOperators (token :: before) rest

/-- The source text of a run of code tokens, from the first token to the last. -/
def text : List CodeToken → Text
  | [] => []
  | first :: rest => first.text ++ rest.flatMap fun code => code.lead ++ code.text

@[simp] theorem text_cons (first : CodeToken) (rest : List CodeToken) :
    text (first :: rest) = first.text ++ rest.flatMap fun code => code.lead ++ code.text := rfl

/-- The texts of the tokens, joined without what stands between them. -/
def joined (code : List CodeToken) : Text := code.flatMap CodeToken.text

/-- The comments of a list that start on the line where the token before them ends: up to the first
one that stands on a later line, or that runs to the end of its line. -/
def sameLine : List Token → List Token
  | [] => []
  | comment :: rest =>
      if comment.space.contains '\n' then []
      else if comment.kind == .lineComment then [comment]
      else comment :: sameLine rest

end Code

/-- A source as code tokens and the comments after the last of them. -/
structure Code where
  tokens : List CodeToken
  tail : List Token
  deriving DecidableEq, Repr

def Code.ofTokens (tokens : List Token) : Code :=
  let (bound, tail) := bindComments [] tokens
  ⟨markOperators [] bound, tail⟩

def Code.read (text : Text) : Except LexError Code := (lex text).map Code.ofTokens

end JavaRecords
