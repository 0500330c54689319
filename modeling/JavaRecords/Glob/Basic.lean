import JavaRecords.Text.Basic

set_option autoImplicit false

namespace JavaRecords.Glob

/-- A class of characters in brackets: the members of its ranges, or everything else. -/
structure CharClass where
  negated : Bool
  ranges : List (Char × Char)
  deriving DecidableEq, Repr

/-- A part of a pattern. What two stars between slashes match depends on where they stand, so each
place has a part of its own. -/
inductive Part where
  /-- A character that stands for itself. -/
  | literal (char : Char)
  /-- Any one byte: `?`. -/
  | any
  /-- Any number of bytes: `*`. -/
  | many
  /-- Any directories at the start, with their last slash: `**/`. -/
  | leadingDirectories
  /-- Everything below a directory: `/**` at the end. -/
  | descendants
  /-- A slash, or two slashes with directories between them: `/**/`. -/
  | innerDirectories
  | oneOf (members : CharClass)
  /-- One of several patterns: `{a,b}`. -/
  | group (branches : List (List Part))
  deriving Repr

/-- Why a text is no pattern. -/
inductive SyntaxError where
  | unclosedClass
  | invalidRange (low high : Char)
  | unopenedGroup
  | unclosedGroup
  | danglingEscape
  deriving DecidableEq, Repr

def SyntaxError.message : SyntaxError → String
  | .unclosedClass => "unclosed character class; missing ']'"
  | .invalidRange low high =>
      "invalid range; '" ++ low.toString ++ "' > '" ++ high.toString ++ "'"
  | .unopenedGroup =>
      "unopened alternate group; missing '\x7b' (maybe escape '\x7d' with '[\x7d]'?)"
  | .unclosedGroup =>
      "unclosed alternate group; missing '\x7d' (maybe escape '\x7b' with '[\x7b]'?)"
  | .danglingEscape => "dangling '\\'"

end JavaRecords.Glob
