import JavaRecords.Decimal.Double
import JavaRecords.Text.Basic

set_option autoImplicit false

namespace JavaRecords.Toml

/-- A value. Dates are kept as they are written, and the entries of a table in the order of the
document. -/
inductive Value where
  | string (text : Text)
  | integer (value : Int)
  | float (value : Double)
  | boolean (value : Bool)
  | dateTime (written : Text)
  | array (items : List Value)
  | table (entries : List (Text × Value))
  deriving Repr

/-- A reader takes a value off the front of a text and gives the rest. -/
abbrev Reader (α : Type) := Text → Option (α × Text)

/-- Whether a character is a blank inside a line. -/
def isBlank (c : Char) : Bool := c == ' ' || c == '\t'

def skipBlanks (text : Text) : Text := text.dropWhile isBlank

/-- Whether a character may stand in comments and strings: no control character but the tab. -/
def isPlain (c : Char) : Bool := c == '\t' || ' ' ≤ c && c.toNat ≠ 127

/-- The text after a line break: a line feed, possibly after a carriage return. -/
def newline? : Text → Option Text
  | '\n' :: rest => some rest
  | '\r' :: '\n' :: rest => some rest
  | _ => none

def skipLines : Text → Text
  | '\r' :: '\n' :: rest => skipLines rest
  | c :: rest => if isBlank c || c == '\n' then skipLines rest else c :: rest
  | [] => []

theorem skipLines_length (text : Text) : (skipLines text).length ≤ text.length := by
  fun_induction skipLines text <;> grind

/-- The text without the blanks, line breaks and comments at its start. -/
def skipLayout (inComment : Bool) : Text → Text
  | '\r' :: '\n' :: rest => skipLayout false rest
  | c :: rest =>
      if c == '\n' then skipLayout false rest
      else if inComment then if isPlain c then skipLayout true rest else c :: rest
      else if isBlank c then skipLayout false rest
      else if c == '#' then skipLayout true rest
      else c :: rest
  | [] => []

end JavaRecords.Toml
