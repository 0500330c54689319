import JavaRecords.Tree.Modifier
import JavaRecords.Tree.Statement
import JavaRecords.Tree.Trivia

set_option autoImplicit false

namespace JavaRecords

/-- The source of a declaration. -/
structure Excerpt where
  /-- The text from the first token to the last. -/
  text : Text
  /-- The blank text before the first token on its line. -/
  indent : Text
  /-- The bytes from the first token to the last. -/
  range : Span
  /-- The range, the blank text and comments before it back to the declaration before, and the
  comments after it on its last line. -/
  extent : Span
  deriving DecidableEq, Repr

structure PackageDecl where
  name : Text
  source : Excerpt
  deriving DecidableEq, Repr

structure ImportDecl where
  path : Text
  isStatic : Bool
  /-- Whether the path ends in a dot and a star. -/
  isStar : Bool
  source : Excerpt
  deriving DecidableEq, Repr

structure ClassDecl where
  name : Text
  /-- The type parameters with their angle brackets. -/
  typeParams : Option Text
  modifiers : Modifiers
  /-- The source text before the keyword `class`, from the first modifier on. -/
  headerPrefix : Text
  superclass : Option Text
  interfaces : Option Text
  permits : Option Text
  package : Option Text
  members : List NodeId
  source : Excerpt
  deriving DecidableEq, Repr

structure RecordComponent where
  name : Text
  ty : Text
  annotations : List Text
  deriving DecidableEq, Repr

/-- The component as it stands in the header of a record: annotations, type and name. -/
def RecordComponent.render (component : RecordComponent) : Text :=
  component.annotations.flatMap (fun written => written ++ [' '])
    ++ component.ty ++ [' '] ++ component.name

/-- A record that takes the place of a class. -/
structure RecordDecl where
  name : Text
  typeParams : Option Text
  modifiers : Modifiers
  headerPrefix : Text
  interfaces : Option Text
  package : Option Text
  components : List RecordComponent
  members : List NodeId
  indent : Text
  /-- The bytes of the source that the record takes the place of. -/
  extent : Span
  /-- The class that the record was made from. -/
  origin : NodeId
  deriving DecidableEq, Repr

structure FieldDecl where
  name : Text
  ty : Text
  modifiers : Modifiers
  /-- The place of the field among the members of its class. -/
  position : Nat
  initializer : Option Text
  /-- How many variables the declaration declares. -/
  declarators : Nat
  source : Excerpt
  deriving DecidableEq, Repr

structure Param where
  name : Text
  ty : Text
  modifiers : Modifiers
  varargs : Bool
  deriving DecidableEq, Repr

structure ConstructorDecl where
  name : Text
  modifiers : Modifiers
  typeParams : Option Text
  params : List Param
  body : Body
  source : Excerpt
  deriving DecidableEq, Repr

structure MethodDecl where
  name : Text
  modifiers : Modifiers
  typeParams : Option Text
  returnTy : Text
  params : List Param
  /-- Absent for abstract and native methods. -/
  body : Option Body
  source : Excerpt
  deriving DecidableEq, Repr

structure InitializerDecl where
  isStatic : Bool
  body : Body
  source : Excerpt
  deriving DecidableEq, Repr

/-- What a declaration that is kept as text declares. -/
inductive TextualKind where
  | classType
  | interfaceType
  | enumType
  | recordType
  | annotationType
  | empty
  | unknown
  deriving DecidableEq, Repr

/-- A declaration kept as text: interfaces, enums, records, annotation types, lone semicolons and
all that is not modelled. -/
structure TextualDecl where
  kind : TextualKind
  name : Option Text
  source : Excerpt
  deriving DecidableEq, Repr

inductive Node where
  | package (decl : PackageDecl)
  | imported (decl : ImportDecl)
  | classDecl (decl : ClassDecl)
  | record (decl : RecordDecl)
  | field (decl : FieldDecl)
  | constructor (decl : ConstructorDecl)
  | method (decl : MethodDecl)
  | initializer (decl : InitializerDecl)
  | textual (decl : TextualDecl)
  deriving DecidableEq, Repr

inductive NodeKind where
  | package
  | imported
  | classDecl
  | record
  | field
  | constructor
  | method
  | initializer
  | textual
  deriving DecidableEq, Repr

/-- The kind's name in messages. -/
def NodeKind.label : NodeKind → String
  | .package => "Package"
  | .imported => "Import"
  | .classDecl => "Class"
  | .record => "Record"
  | .field => "Field"
  | .constructor => "Constructor"
  | .method => "Method"
  | .initializer => "Initializer"
  | .textual => "Opaque"

namespace Node

def kind : Node → NodeKind
  | .package _ => .package
  | .imported _ => .imported
  | .classDecl _ => .classDecl
  | .record _ => .record
  | .field _ => .field
  | .constructor _ => .constructor
  | .method _ => .method
  | .initializer _ => .initializer
  | .textual _ => .textual

/-- Whether the declaration may stand in the body of a class or a record. -/
def isMember : Node → Bool
  | .package _ | .imported _ => false
  | _ => true

/-- The source of the declaration. A record has none: it is not parsed but made. -/
def source? : Node → Option Excerpt
  | .package decl => some decl.source
  | .imported decl => some decl.source
  | .classDecl decl => some decl.source
  | .record _ => none
  | .field decl => some decl.source
  | .constructor decl => some decl.source
  | .method decl => some decl.source
  | .initializer decl => some decl.source
  | .textual decl => some decl.source

/-- The bytes of the source that belong to the declaration. -/
def extent : Node → Span
  | .record decl => decl.extent
  | node => (node.source?.map Excerpt.extent).getD ⟨0, 0⟩

def name? : Node → Option Text
  | .package decl => some decl.name
  | .imported decl => some decl.path
  | .classDecl decl => some decl.name
  | .record decl => some decl.name
  | .field decl => some decl.name
  | .constructor decl => some decl.name
  | .method decl => some decl.name
  | .initializer _ => none
  | .textual decl => decl.name

end Node

end JavaRecords
