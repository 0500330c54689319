import JavaRecords.Conversion.Classify

set_option autoImplicit false

namespace JavaRecords

/-- Why a record does not need a member of its class. -/
inductive ElideReason where
  | canonicalConstructor
  | componentField
  | trivialAccessor
  deriving DecidableEq, Repr

inductive Disposition where
  | elide (reason : ElideReason)
  | retain
  deriving DecidableEq, Repr

/-- What becomes of each member, in declaration order, and the notes for review. -/
structure Partition where
  dispositions : List (NodeId × Disposition)
  diagnostics : List Diagnostic
  deriving DecidableEq, Repr

namespace Partition

/-- The members that the record keeps. -/
def retained (partition : Partition) : List NodeId :=
  (partition.dispositions.filter fun entry => entry.2 == .retain).map Prod.fst

/-- The members that the record does without, and why. -/
def elided (partition : Partition) : List (NodeId × ElideReason) :=
  partition.dispositions.filterMap fun entry =>
    match entry.2 with
    | .elide reason => some (entry.1, reason)
    | .retain => none

end Partition

/-- Whether a method has the header of an accessor: no parameters, no type parameters, not static,
and the name and the type of a component. -/
def isAccessorShaped (method : MethodDecl) (eligible : Eligible) : Bool :=
  method.params.isEmpty && method.typeParams.isNone && !method.modifiers.has .static
    && (eligible.component? method.name).any fun component =>
      sameType method.returnTy component.ty

def Body.returnsField (body : Body) (name : Text) : Bool :=
  match body.statements with
  | [.ret (some value) _] => value.isName name || value.isThisField name
  | _ => false

/-- Whether a method is the accessor that the record provides: the header of an accessor, no
annotation other than `Override`, and a body that only returns the field. -/
def isTrivialAccessor (method : MethodDecl) (eligible : Eligible) : Bool :=
  isAccessorShaped method eligible
    && method.modifiers.annotations.all (fun written =>
      annotationName written == "Override".toList)
    && method.body.any fun body => body.returnsField method.name

def disposition (eligible : Eligible) (member : Member) : Disposition :=
  if member.id = eligible.canonical then .elide .canonicalConstructor
  else if eligible.isComponentField member.id then .elide .componentField
  else match member.node with
    | .method decl => if isTrivialAccessor decl eligible then .elide .trivialAccessor else .retain
    | _ => .retain

/-- The note on a member that is kept: a method like an accessor that is not public. -/
def accessorNote? (eligible : Eligible) (member : Member) : Option Diagnostic :=
  match disposition eligible member, member.node with
  | .retain, .method decl =>
      if isAccessorShaped decl eligible && !decl.modifiers.has .pub then
        some (.nonPublicAccessor decl.name)
      else none
  | _, _ => none

/-- Decides what becomes of each member. -/
def ClassView.partition (view : ClassView) (eligible : Eligible) : Partition where
  dispositions := view.members.map fun member => (member.id, disposition eligible member)
  diagnostics := view.members.filterMap (accessorNote? eligible)

end JavaRecords
