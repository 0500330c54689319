import JavaRecords.Code.Piece
import JavaRecords.Parse.Modifiers
import JavaRecords.Token.Keyword
import JavaRecords.Tree.Statement

set_option autoImplicit false

namespace JavaRecords

namespace Code

/-- The expression that a run of tokens spells. -/
def expr (code : List CodeToken) : Expr :=
  let shape := match code with
    | [name] => if name.isIdent && !isKeyword name.text then .name else .other
    | [this, dot, name] =>
        if this.isWord "this" && dot.isPunct '.' && name.isIdent then .thisField else .other
    | _ => .other
  ⟨text code, shape⟩

/-- The type and the name of a local variable whose declaration, without its initial value, is the
whole run of tokens: modifiers, a type and a name. -/
def localDeclaration? (code : List CodeToken) : Option (Text × Text) :=
  match modifiers code with
  | .error _ => none
  | .ok run =>
      match run.rest, run.rest.reverse with
      | first :: _ :: _, name :: last :: earlier =>
          if first.isIdent && isTypeName first.text && name.isIdent && !isKeyword name.text
              && ((last.isIdent && isTypeName last.text) || last.isPunct '>'
                || (last.isPunct ']' && earlier.head?.any (·.isPunct '['))) then
            some (text run.rest.dropLast, name.text)
          else none
      | _, _ => none

/-- A run of tokens cut at an assignment operator. -/
structure AssignSplit where
  target : List CodeToken
  op : AssignOp
  value : List CodeToken

def opensBracket (code : CodeToken) : Bool :=
  code.isPunct '(' || code.isPunct '[' || code.isPunct '{'

def closesBracket (code : CodeToken) : Bool :=
  code.isPunct ')' || code.isPunct ']' || code.isPunct '}'

/-- Cuts a run of tokens at its first assignment operator outside brackets. `before` are the tokens
already met, from right to left, and `depth` counts the brackets that are open. -/
def splitAssign? (depth : Nat) (before : List CodeToken) : List CodeToken → Option AssignSplit
  | [] => none
  | code :: rest =>
      if opensBracket code then splitAssign? (depth + 1) (code :: before) rest
      else if closesBracket code then splitAssign? (depth - 1) (code :: before) rest
      else match depth, code.assign with
        | 0, some op => some ⟨(before.drop op.lead).reverse, op, rest⟩
        | _, _ => splitAssign? depth (code :: before) rest

def constructorCall? : List CodeToken → Option (CallKind × Text)
  | word :: paren :: rest =>
      let kind? : Option CallKind :=
        if word.isWord "this" then some .this
        else if word.isWord "super" then some .super
        else none
      if paren.isPunct '(' then do
        let kind ← kind?
        let arguments ← close? '(' ')' 0 rest
        if arguments.rest.isEmpty then some (kind, text arguments.inside) else none
      else none
  | _ => none

/-- The increment or decrement at the start of a run of tokens, and what it applies to. -/
def leadingStep? : List CodeToken → Option (AssignOp × List CodeToken)
  | first :: second :: rest => (CodeToken.increment? first second).map (·, rest)
  | _ => none

/-- The increment or decrement at the end of a run of tokens, and what it applies to. -/
def trailingStep? (code : List CodeToken) : Option (AssignOp × List CodeToken) :=
  match code.reverse with
  | last :: previous :: target :: rest =>
      (CodeToken.increment? previous last).map (·, (target :: rest).reverse)
  | _ => none

/-- The statement with an assignment operator, outside brackets, in the tokens `code`. -/
def assignment? (code : List CodeToken) (written : Text) : Option Stmt :=
  (splitAssign? 0 [] code).map fun split =>
    match split.op, localDeclaration? split.target with
    | .assign, some (ty, name) => .localVar ty name (some (expr split.value)) written
    | op, _ => .assign (expr split.target) op (some (expr split.value)) written

def statement (piece : Piece) : Stmt :=
  let written := piece.text
  match piece.trimmed with
  | [] => .other written
  | first :: rest =>
      let code := first :: rest
      if first.isWord "return" then
        .ret (if rest.isEmpty then none else some (expr rest)) written
      else match constructorCall? code with
        | some (kind, arguments) => .constructorCall kind arguments written
        | none => match leadingStep? code with
          | some (op, target) => .assign (expr target) op none written
          | none => match assignment? code written with
            | some stmt => stmt
            | none => match trailingStep? code with
              | some (op, target) => .assign (expr target) op none written
              | none => match localDeclaration? code with
                | some (ty, name) => .localVar ty name none written
                | none => .other written

/-- Statements end at a semicolon, or after a block unless they start with `do`, hold an assignment
or an arrow before the block, or go on after it. -/
def statementRule : PieceRule where
  opens code := code.isWord "do"
  keepsOpen code := code.assign.isSome || code.arrow
  chains next := next.isWord "else" || next.isWord "catch" || next.isWord "finally"
    || next.isPunct ';' || next.isPunct '.' || next.isPunct ')' || next.isPunct ','

/-- The body that a run of tokens spells, from its opening to its closing brace. -/
def body (block : List CodeToken) : Except ParseError Body :=
  let cut := pieces statementRule block.tail.dropLast
  match cut.unclosed with
  | some offset => .error (.unbalanced '{' offset)
  | none => .ok ⟨text block, cut.pieces.map statement⟩

end Code

end JavaRecords
