import JavaRecords.Text.Basic

set_option autoImplicit false

namespace JavaRecords

/-- A JSON value. The fields of an object stay in order. -/
inductive Json where
  | bool (value : Bool)
  | num (value : Nat)
  /-- A whole number that is written with one decimal place. -/
  | decimal (value : Nat)
  | str (value : String)
  | arr (items : List Json)
  | obj (fields : List (String × Json))
  deriving Repr

namespace Json

def text (value : Text) : Json := .str (String.ofList value)

/-- The digits of a byte in base sixteen. -/
def hexByte (value : Nat) : List Char :=
  let digit (n : Nat) : Char := if n < 10 then Char.ofNat (48 + n) else Char.ofNat (87 + n)
  [digit (value / 16), digit (value % 16)]

/-- A character inside a string: quotes, backslashes and control characters are escaped. -/
def escapeChar (c : Char) : List Char :=
  match c with
  | '"' => ['\\', '"']
  | '\\' => ['\\', '\\']
  | '\n' => ['\\', 'n']
  | '\r' => ['\\', 'r']
  | '\t' => ['\\', 't']
  | c =>
      if c.toNat = 8 then ['\\', 'b']
      else if c.toNat = 12 then ['\\', 'f']
      else if c.toNat < 32 then ['\\', 'u', '0', '0'] ++ hexByte c.toNat
      else [c]

def quote (value : String) : String :=
  String.ofList ('"' :: value.toList.flatMap escapeChar ++ ['"'])

/-- A line break and the indentation of a nesting level, two blanks each. -/
def lineBreak (level : Nat) : String :=
  String.ofList ('\n' :: List.replicate (2 * level) ' ')

mutual

/-- A value at a nesting level. Empty arrays and objects stay on their line. -/
def prettyAt (level : Nat) : Json → String
  | .bool value => if value then "true" else "false"
  | .num value => toString value
  | .decimal value => toString value ++ ".0"
  | .str value => quote value
  | .arr [] => "[]"
  | .arr items =>
      "[" ++ prettyItems (level + 1) items ++ lineBreak level ++ "]"
  | .obj [] => "\x7b\x7d"
  | .obj fields =>
      "\x7b" ++ prettyFields (level + 1) fields ++ lineBreak level ++ "\x7d"

/-- The items of an array, each on a line of its own. -/
def prettyItems (level : Nat) : List Json → String
  | [] => ""
  | [item] => lineBreak level ++ prettyAt level item
  | item :: rest => lineBreak level ++ prettyAt level item ++ "," ++ prettyItems level rest

/-- The fields of an object, each on a line of its own. -/
def prettyFields (level : Nat) : List (String × Json) → String
  | [] => ""
  | [(name, value)] => lineBreak level ++ quote name ++ ": " ++ prettyAt level value
  | (name, value) :: rest =>
      lineBreak level ++ quote name ++ ": " ++ prettyAt level value ++ ","
        ++ prettyFields level rest

end

/-- A value over several lines, with two blanks for each level. -/
def pretty (value : Json) : String := prettyAt 0 value

end Json

end JavaRecords
