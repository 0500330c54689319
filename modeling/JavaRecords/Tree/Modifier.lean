import JavaRecords.Text.Basic

set_option autoImplicit false

namespace JavaRecords

inductive Modifier where
  | pub
  | prot
  | priv
  | static
  | final
  | abstract
  | native
  | synchronized
  | transient
  | volatile
  | strictfp
  | default
  | sealed
  | nonSealed
  deriving DecidableEq, Repr

namespace Modifier

def spelling : Modifier → String
  | .pub => "public"
  | .prot => "protected"
  | .priv => "private"
  | .static => "static"
  | .final => "final"
  | .abstract => "abstract"
  | .native => "native"
  | .synchronized => "synchronized"
  | .transient => "transient"
  | .volatile => "volatile"
  | .strictfp => "strictfp"
  | .default => "default"
  | .sealed => "sealed"
  | .nonSealed => "non-sealed"

def all : List Modifier :=
  [.pub, .prot, .priv, .static, .final, .abstract, .native, .synchronized, .transient, .volatile,
    .strictfp, .default, .sealed, .nonSealed]

def ofWord? (word : Text) : Option Modifier := all.find? fun modifier =>
  modifier.spelling.toList == word

end Modifier

/-- The modifiers of a declaration in source order, and its annotations as written. -/
structure Modifiers where
  keywords : List Modifier := []
  annotations : List Text := []
  deriving DecidableEq, Repr, Inhabited

/-- The simple name of an annotation: without the at signs before it, the arguments after it and
the packages that qualify it. -/
def annotationName (written : Text) : Text :=
  let qualified := Text.trim ((written.dropWhile (· == '@')).takeWhile (· ≠ '('))
  Text.trim (qualified.reverse.takeWhile (· ≠ '.')).reverse

namespace Modifiers

def has (modifiers : Modifiers) (modifier : Modifier) : Bool :=
  modifiers.keywords.contains modifier

def annotatedWith (modifiers : Modifiers) (name : Text) : Bool :=
  modifiers.annotations.any fun written => annotationName written == name

end Modifiers

end JavaRecords
