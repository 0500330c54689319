import JavaRecords.Code.Basic
import JavaRecords.Token.Keyword

set_option autoImplicit false

namespace JavaRecords

/-- A write to a simple name or to a field of `this`. -/
structure VariableWrite where
  name : Text
  /-- Whether the name is written as a field of `this`. -/
  qualified : Bool
  op : AssignOp
  /-- The byte offset of the first token of the target. -/
  offset : Nat
  deriving DecidableEq, Repr

namespace Code

/-- What can be written: a name, and the tokens after it. -/
structure Target where
  name : Text
  qualified : Bool
  after : List CodeToken

/-- The target that starts with `code`: `this`, a dot and an identifier, or an identifier that is no
keyword and does not follow a dot. -/
def target? (before : List CodeToken) (code : CodeToken) (after : List CodeToken) :
    Option Target :=
  let bare : Option Target :=
    if code.isIdent && !isKeyword code.text && !(before.head?.any (·.isPunct '.')) then
      some ⟨code.text, false, after⟩
    else none
  match after with
  | dot :: field :: rest =>
      if code.isWord "this" && dot.isPunct '.' && field.isIdent then some ⟨field.text, true, rest⟩
      else bare
  | _ => bare

/-- The assignment operator at the start of a run of tokens: one of the first four tokens ends an
operator that starts at the first. -/
def leadingAssign? (code : List CodeToken) : Option AssignOp :=
  (code.take 4).zipIdx.findSome? fun (token, index) =>
    token.assign.filter fun op => op.lead == index

def leadingIncrement? : List CodeToken → Option AssignOp
  | first :: second :: _ => CodeToken.increment? first second
  | _ => none

/-- The increment or decrement at the end of a run of tokens, which is given from right to left. -/
def trailingIncrement? : List CodeToken → Option AssignOp
  | last :: previous :: _ => CodeToken.increment? previous last
  | _ => none

/-- The operator that writes a target between `before` (from right to left) and `after`: an
assignment after it, an increment or decrement after it, or one before it. -/
def writeOp? (before after : List CodeToken) : Option AssignOp :=
  leadingAssign? after <|> leadingIncrement? after <|> trailingIncrement? before

/-- The writes of a run of tokens. `before` are the tokens already met, from right to left. -/
def writesFrom (before : List CodeToken) : List CodeToken → List VariableWrite
  | [] => []
  | code :: rest =>
      let write? : Option VariableWrite := do
        let target ← target? before code rest
        let op ← writeOp? before target.after
        some ⟨target.name, target.qualified, op, code.start⟩
      write?.toList ++ writesFrom (code :: before) rest

/-- Whether the tokens before a name, from right to left, can end a type. -/
def endsType : List CodeToken → Bool
  | [] => false
  | last :: earlier =>
      (last.isIdent && isTypeName last.text) || last.isPunct '>'
        || (last.isPunct ']' && earlier.head?.any (·.isPunct '['))

def endsDeclarator : List CodeToken → Bool
  | [] => false
  | next :: _ =>
      next.assign == some .assign || next.isPunct ';' || next.isPunct ',' || next.isPunct ':'
        || next.isPunct ')'

def startsArrow : List CodeToken → Bool
  | dash :: angle :: _ => dash.isPunct '-' && angle.arrow
  | _ => false

/-- The names that a run of tokens declares, in order. `before` are the tokens already met, from
right to left, and `declared` the names already found. -/
def declaredFrom (declared : List Text) (before : List CodeToken) : List CodeToken → List Text
  | [] => declared
  | code :: rest =>
      let declares := !before.isEmpty && code.isIdent && !isKeyword code.text
        && (startsArrow rest || (endsDeclarator rest && endsType before))
      let declared :=
        if declares && !declared.contains code.text then declared ++ [code.text] else declared
      declaredFrom declared (code :: before) rest

end Code

/-- Every write in a piece of code whose target is a simple name or a field of `this`. -/
def scanWrites (fragment : Text) : Except LexError (List VariableWrite) := do
  let code ← Code.read fragment
  return Code.writesFrom [] code.tokens

/-- The names of the local variables, pattern bindings, catch parameters and lambda parameters that
a piece of code declares. Scopes are not told apart. -/
def scanDeclaredNames (fragment : Text) : Except LexError (List Text) := do
  let code ← Code.read fragment
  return Code.declaredFrom [] [] code.tokens

end JavaRecords
