import JavaRecords.Token.Lexer
import JavaRecords.Tree.Basic

set_option autoImplicit false

namespace JavaRecords

/-- Why a class of a tree cannot be looked up. -/
inductive Violation where
  | unknownNode (id : NodeId)
  | notAMember (id : NodeId) (kind : NodeKind)
  | duplicateMember (id : NodeId)
  | fieldOutOfOrder (field : Text) (position : Nat)
  | malformedBody (member : Text)
  deriving DecidableEq, Repr

def Violation.message : Violation → String
  | .unknownNode id => s!"node #{id} does not exist in the tree"
  | .notAMember id kind => s!"node #{id} ({kind.label}) cannot appear in a class body"
  | .duplicateMember id => s!"member #{id} is listed more than once"
  | .fieldOutOfOrder field position =>
      "field `" ++ String.ofList field
        ++ s!"` has position {position}, which is out of declaration order"
  | .malformedBody member =>
      "body of `" ++ String.ofList member ++ "` is not a well-formed braced block"

/-- A member of a class: its id and its node. -/
structure Member where
  id : NodeId
  node : Node
  deriving DecidableEq, Repr

/-- A class with its members. Looking it up checks everything that a conversion relies on, so what
is built on it need not check again. -/
structure ClassView where
  id : NodeId
  decl : ClassDecl
  members : List Member
  deriving DecidableEq, Repr

namespace ClassView

def fields (view : ClassView) : List (NodeId × FieldDecl) :=
  view.members.filterMap fun member =>
    match member.node with
    | .field decl => some (member.id, decl)
    | _ => none

def constructors (view : ClassView) : List (NodeId × ConstructorDecl) :=
  view.members.filterMap fun member =>
    match member.node with
    | .constructor decl => some (member.id, decl)
    | _ => none

def methods (view : ClassView) : List (NodeId × MethodDecl) :=
  view.members.filterMap fun member =>
    match member.node with
    | .method decl => some (member.id, decl)
    | _ => none

end ClassView

/-- Whether a body is a block in braces whose tokens are all closed. -/
def Body.isBlock (body : Body) : Bool :=
  let text := Text.trim body.text
  text.head? == some '{' && text.getLast? == some '}' && (lex text).isOk

def InitializerDecl.label (decl : InitializerDecl) : Text :=
  if decl.isStatic then "static initializer".toList else "instance initializer".toList

def Node.labelledBody? : Node → Option (Text × Body)
  | .constructor decl => some (decl.name, decl.body)
  | .method decl => decl.body.map (decl.name, ·)
  | .initializer decl => some (decl.label, decl.body)
  | _ => none

namespace SyntaxTree

/-- Checks one member: that it exists, may be a member, was not met before, stands after the field
before it, and has a proper body. -/
def checkMember (tree : SyntaxTree) (seen : List NodeId) (lastField : Option Nat) (id : NodeId) :
    Except Violation Node :=
  match tree.node? id with
  | none => .error (.unknownNode id)
  | some node =>
      if !node.isMember then .error (.notAMember id node.kind)
      else if seen.contains id then .error (.duplicateMember id)
      else match node with
        | .field decl =>
            if lastField.any fun last => decl.position ≤ last then
              .error (.fieldOutOfOrder decl.name decl.position)
            else .ok node
        | _ =>
            match node.labelledBody? with
            | some (label, body) => if body.isBlock then .ok node else .error (.malformedBody label)
            | none => .ok node

/-- Looks up members in order. `seen` are the members already met, and `lastField` is the position
of the last field among them. -/
def resolveMembers (tree : SyntaxTree) (seen : List NodeId) (lastField : Option Nat) :
    List NodeId → Except Violation (List Member)
  | [] => .ok []
  | id :: rest => do
      let node ← tree.checkMember seen lastField id
      let lastField := match node with
        | .field decl => some decl.position
        | _ => lastField
      let members ← tree.resolveMembers (id :: seen) lastField rest
      return ⟨id, node⟩ :: members

/-- Looks up a class with its members; nothing if the node is not a class. -/
def resolveClass (tree : SyntaxTree) (id : NodeId) : Except Violation (Option ClassView) :=
  match tree.node? id with
  | none => .error (.unknownNode id)
  | some (.classDecl decl) => do
      let members ← tree.resolveMembers [] none decl.members
      return some ⟨id, decl, members⟩
  | some _ => .ok none

end SyntaxTree

end JavaRecords
