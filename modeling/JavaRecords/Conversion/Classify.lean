import JavaRecords.Code.Writes
import JavaRecords.Conversion.ClassView

set_option autoImplicit false

namespace JavaRecords

/-- A component of a record, and the field it stands for. -/
structure Component where
  field : NodeId
  name : Text
  ty : Text
  annotations : List Text
  deriving DecidableEq, Repr

def Component.toRecordComponent (component : Component) : RecordComponent :=
  ⟨component.name, component.ty, component.annotations⟩

/-- What a record is made from: the components in the order of their fields, and the canonical
constructor. -/
structure Eligible where
  components : List Component
  canonical : NodeId
  deriving DecidableEq, Repr

namespace Eligible

def component? (eligible : Eligible) (name : Text) : Option Component :=
  eligible.components.find? fun component => component.name == name

def isComponentField (eligible : Eligible) (id : NodeId) : Bool :=
  eligible.components.any fun component => component.field == id

end Eligible

/-- Why a class stays a class. -/
inductive IneligibleReason where
  | notAClass
  | extendsClass (superclass : Text)
  | incompatibleModifier (modifier : Modifier)
  | instanceInitializer
  | multipleDeclarators (declaration : Text)
  | instanceFieldNotComponent (field : Text)
  | noComponents
  | noCanonicalConstructor
  | componentWritten (field member : Text)
  deriving DecidableEq, Repr

def IneligibleReason.message : IneligibleReason → String
  | .notAClass => "not a class declaration"
  | .extendsClass superclass => "extends `" ++ String.ofList superclass ++ "`"
  | .incompatibleModifier modifier => "`" ++ modifier.spelling ++ "` classes cannot become records"
  | .instanceInitializer => "declares an instance initializer"
  | .multipleDeclarators declaration =>
      "`" ++ String.ofList declaration ++ "` declares several fields in one statement"
  | .instanceFieldNotComponent field =>
      "instance field `" ++ String.ofList field ++ "` is not private and final"
  | .noComponents => "declares no private final instance fields"
  | .noCanonicalConstructor =>
      "no constructor only assigns every component from its parameters in order"
  | .componentWritten field member =>
      "component `" ++ String.ofList field ++ "` is assigned in `" ++ String.ofList member ++ "`"

inductive Classification where
  | eligible (eligible : Eligible)
  | ineligible (reason : IneligibleReason)
  deriving DecidableEq, Repr

def Classification.isEligible : Classification → Bool
  | .eligible _ => true
  | .ineligible _ => false

/-- Notes for review. They never keep a class from becoming a record. -/
inductive Diagnostic where
  /-- A method like an accessor stays and is not public. -/
  | nonPublicAccessor (method : Text)
  /-- Several constructors could be the canonical one, and the first is taken. -/
  | ambiguousCanonicalConstructor (candidates : Nat)
  deriving DecidableEq, Repr

def Diagnostic.message : Diagnostic → String
  | .nonPublicAccessor method =>
      "accessor `" ++ String.ofList method ++ "()` is retained but not public"
  | .ambiguousCanonicalConstructor candidates =>
      s!"{candidates} constructors match the canonical shape; the first declared is used"

/-- Whether two types are the same up to blank text, where three dots are a pair of brackets. -/
def sameType (left right : Text) : Bool :=
  Text.dotsToBrackets (Text.compact left) == Text.dotsToBrackets (Text.compact right)

def ClassDecl.superclass? (decl : ClassDecl) : Option Text :=
  (decl.superclass.map Text.compact).filter fun superclass =>
    superclass != "Object".toList && superclass != "java.lang.Object".toList

namespace ClassView

def headerObstacle? (view : ClassView) : Option IneligibleReason :=
  match view.decl.superclass? with
  | some superclass => some (.extendsClass superclass)
  | none =>
      ([.abstract, .sealed, .nonSealed].find? view.decl.modifiers.has).map .incompatibleModifier

def hasInstanceInitializer (view : ClassView) : Bool :=
  view.members.any fun member =>
    match member.node with
    | .initializer decl => !decl.isStatic
    | _ => false

def component (id : NodeId) (field : FieldDecl) : Except IneligibleReason Component :=
  if !field.modifiers.has .priv || !field.modifiers.has .final then
    .error (.instanceFieldNotComponent field.name)
  else if field.declarators > 1 then .error (.multipleDeclarators field.source.text)
  else .ok ⟨id, field.name, field.ty, field.modifiers.annotations⟩

def instanceFields (view : ClassView) : List (NodeId × FieldDecl) :=
  view.fields.filter fun field => !field.2.modifiers.has .static

/-- The components that the instance fields give. -/
def components (view : ClassView) : Except IneligibleReason (List Component) :=
  match view.headerObstacle? with
  | some reason => .error reason
  | none =>
      if view.hasInstanceInitializer then .error .instanceInitializer
      else match view.instanceFields.mapM fun field => component field.1 field.2 with
        | .error reason => .error reason
        | .ok [] => .error .noComponents
        | .ok components => .ok components

end ClassView

def assignsComponent (stmt : Stmt) (param : Param) (component : Component) : Bool :=
  match stmt with
  | .assign target .assign (some value) _ =>
      target.isThisField component.name && value.isName param.name
  | _ => false

/-- Whether a constructor only assigns every component from its parameters, in order. -/
def isCanonical (decl : ConstructorDecl) (components : List Component) : Bool :=
  decl.params.length == components.length
    && decl.body.statements.length == components.length
    && (decl.params.zip components).all (fun (param, component) => sameType param.ty component.ty)
    && (decl.body.statements.zip (decl.params.zip components)).all
      fun (stmt, param, component) => assignsComponent stmt param component

/-- The code of a member that can write a field, and the names of its parameters. -/
def Node.writingCode? : Node → Option (Text × List Text)
  | .constructor decl => some (decl.body.text, decl.params.map Param.name)
  | .method decl => decl.body.map fun body => (body.text, decl.params.map Param.name)
  | .initializer decl => some (decl.body.text, [])
  | .field decl => decl.initializer.map (·, [])
  | _ => none

/-- The first component that a member assigns. A write to a bare name counts only if neither a
parameter nor a local variable has that name. -/
def componentWrittenBy? (node : Node) (components : List Component) : Option Text := do
  let (code, params) ← node.writingCode?
  let writes := (scanWrites code).toOption.getD []
  let locals := (scanDeclaredNames code).toOption.getD []
  let write ← writes.find? fun write =>
    components.any (fun component => component.name == write.name)
      && (write.qualified || !(params.contains write.name || locals.contains write.name))
  some write.name

/-- A member as messages name it. -/
def Node.describe : Node → Text
  | .constructor decl => callText decl.name decl.params
  | .method decl => callText decl.name decl.params
  | .initializer decl => decl.label
  | node => node.name?.getD "<member>".toList
where
  callText (name : Text) (params : List Param) : Text :=
    name ++ ['('] ++ Text.join [',', ' '] (params.map Param.ty) ++ [')']

namespace ClassView

def canonicalConstructors (view : ClassView) (components : List Component) : List NodeId :=
  (view.constructors.filter fun decl => isCanonical decl.2 components).map Prod.fst

/-- The first assignment to a component outside the canonical constructor. -/
def strayWrite? (view : ClassView) (components : List Component) (canonical : NodeId) :
    Option IneligibleReason :=
  view.members.findSome? fun member =>
    if member.id = canonical then none
    else (componentWrittenBy? member.node components).map
      (.componentWritten · member.node.describe)

/-- Whether the class can become a record, and the notes that come up on the way. -/
def classifyWithDiagnostics (view : ClassView) : Classification × List Diagnostic :=
  match view.components with
  | .error reason => (.ineligible reason, [])
  | .ok components =>
      match view.canonicalConstructors components with
      | [] => (.ineligible .noCanonicalConstructor, [])
      | canonical :: others =>
          let notes := if others.isEmpty then []
            else [.ambiguousCanonicalConstructor (others.length + 1)]
          match view.strayWrite? components canonical with
          | some reason => (.ineligible reason, notes)
          | none => (.eligible ⟨components, canonical⟩, notes)

/-- Whether the class can become a record: its instance fields are private and final, a constructor
only assigns them from its parameters in order, and nothing else assigns them. -/
def classify (view : ClassView) : Classification := view.classifyWithDiagnostics.1

end ClassView

namespace SyntaxTree

/-- Whether a node can become a record. Only a class can. -/
def classify (tree : SyntaxTree) (id : NodeId) : Except Violation Classification :=
  (tree.resolveClass id).map fun view? =>
    match view? with
    | some view => view.classify
    | none => .ineligible .notAClass

/-- Whether a node would become a record. -/
def isEligible (tree : SyntaxTree) (id : NodeId) : Bool :=
  match tree.classify id with
  | .ok classification => classification.isEligible
  | .error _ => false

end SyntaxTree

end JavaRecords
