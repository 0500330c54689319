set_option autoImplicit false

namespace JavaRecords.Text

/-- Whether the code point of `c` lies in one of the closed ranges of `table`. -/
def inRanges (table : List (Nat × Nat)) (c : Char) : Bool :=
  table.any fun range => range.1 ≤ c.toNat && c.toNat ≤ range.2

/-- Code points of `White_Space` from U+0080 on. -/
def wideSpaces : List (Nat × Nat) := [
  (0x85, 0x85), (0xa0, 0xa0), (0x1680, 0x1680), (0x2000, 0x200a), (0x2028, 0x2029),
  (0x202f, 0x202f), (0x205f, 0x205f), (0x3000, 0x3000)
]

/-- A blank character: tab, line feed, vertical tab, form feed, carriage return, space, and the
blank characters outside ASCII. -/
def isSpace (c : Char) : Bool :=
  if c.toNat < 0x80 then c == ' ' || (9 ≤ c.toNat && c.toNat ≤ 13)
  else inRanges wideSpaces c

theorem isSpace_newline : isSpace '\n' = true := by decide

theorem isSpace_return : isSpace '\r' = true := by decide

end JavaRecords.Text
