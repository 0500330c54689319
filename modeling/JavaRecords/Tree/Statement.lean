import JavaRecords.Code.AssignOp
import JavaRecords.Text.Basic

set_option autoImplicit false

namespace JavaRecords

/-- What an expression is made of. -/
inductive ExprShape where
  /-- A bare identifier. -/
  | name
  /-- An identifier after `this` and a dot. -/
  | thisField
  | other
  deriving DecidableEq, Repr

/-- An expression: its source text and its shape. -/
structure Expr where
  text : Text
  shape : ExprShape
  deriving DecidableEq, Repr

namespace Expr

/-- The identifier that a bare name or a field of `this` stands for. -/
def ident? (expr : Expr) : Option Text :=
  match expr.shape with
  | .name => some expr.text
  | .thisField =>
      match expr.text with
      | 't' :: 'h' :: 'i' :: 's' :: rest =>
          some (Text.trimStart ((Text.trimStart rest).dropWhile (· == '.')))
      | _ => none
  | .other => none

def isThisField (expr : Expr) (name : Text) : Bool :=
  expr.shape == .thisField && expr.ident? == some name

/-- Whether the expression is the bare identifier `name`. -/
def isName (expr : Expr) (name : Text) : Bool := expr.shape == .name && expr.text == name

end Expr

/-- Which constructor an explicit constructor call names. -/
inductive CallKind where
  | this
  | super
  deriving DecidableEq, Repr

/-- A top-level statement of a body, with its source text. -/
inductive Stmt where
  | assign (target : Expr) (op : AssignOp) (value : Option Expr) (text : Text)
  | ret (value : Option Expr) (text : Text)
  | localVar (ty name : Text) (init : Option Expr) (text : Text)
  | constructorCall (kind : CallKind) (args text : Text)
  | other (text : Text)
  deriving DecidableEq, Repr

def Stmt.text : Stmt → Text
  | .assign _ _ _ text => text
  | .ret _ text => text
  | .localVar _ _ _ text => text
  | .constructorCall _ _ text => text
  | .other text => text

/-- A block in braces: its source text and its top-level statements. -/
structure Body where
  text : Text
  statements : List Stmt
  deriving DecidableEq, Repr

end JavaRecords
