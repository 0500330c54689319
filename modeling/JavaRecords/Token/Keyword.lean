import JavaRecords.Text.Basic

set_option autoImplicit false

namespace JavaRecords

/-- The reserved words of Java, with the literals `true`, `false` and `null`. -/
def keywords : List Text := [
  "abstract".toList, "assert".toList, "boolean".toList, "break".toList, "byte".toList,
  "case".toList, "catch".toList, "char".toList, "class".toList, "const".toList,
  "continue".toList, "default".toList, "do".toList, "double".toList, "else".toList,
  "enum".toList, "extends".toList, "final".toList, "finally".toList, "float".toList,
  "for".toList, "goto".toList, "if".toList, "implements".toList, "import".toList,
  "instanceof".toList, "int".toList, "interface".toList, "long".toList, "native".toList,
  "new".toList, "package".toList, "private".toList, "protected".toList, "public".toList,
  "return".toList, "short".toList, "static".toList, "strictfp".toList, "super".toList,
  "switch".toList, "synchronized".toList, "this".toList, "throw".toList, "throws".toList,
  "transient".toList, "try".toList, "void".toList, "volatile".toList, "while".toList,
  "true".toList, "false".toList, "null".toList]

/-- The primitive types, and `var`, which stands for a type that is left out. -/
def primitiveTypes : List Text := [
  "boolean".toList, "byte".toList, "char".toList, "double".toList, "float".toList,
  "int".toList, "long".toList, "short".toList, "var".toList]

def isKeyword (word : Text) : Bool := keywords.contains word

/-- Whether an identifier can end a type in a declaration. -/
def isTypeName (word : Text) : Bool := primitiveTypes.contains word || !isKeyword word

end JavaRecords
