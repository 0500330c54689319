import JavaRecords.Toml.Value

set_option autoImplicit false

namespace JavaRecords.Toml

/-- The value of a digit in base sixteen. -/
def hexValue? (c : Char) : Option Nat :=
  if c.isDigit then some (c.toNat - '0'.toNat)
  else if 'a' ≤ c && c ≤ 'f' then some (c.toNat - 'a'.toNat + 10)
  else if 'A' ≤ c && c ≤ 'F' then some (c.toNat - 'A'.toNat + 10)
  else none

/-- The character with the code of the first `count` digits. -/
def readCode (count : Nat) : Reader Char := fun text =>
  match (text.take count).mapM hexValue? with
  | none => none
  | some digits =>
      let code := digits.foldl (fun code digit => 16 * code + digit) 0
      if digits.length = count ∧ code.isValidChar then some (Char.ofNat code, text.drop count)
      else none

theorem readCode_length {count : Nat} {text rest : Text} {c : Char}
    (found : readCode count text = some (c, rest)) : rest.length ≤ text.length := by
  unfold readCode at found
  grind

/-- The character of an escape, after its backslash. -/
def readEscape : Reader Char
  | 'b' :: rest => some (Char.ofNat 8, rest)
  | 't' :: rest => some ('\t', rest)
  | 'n' :: rest => some ('\n', rest)
  | 'f' :: rest => some (Char.ofNat 12, rest)
  | 'r' :: rest => some ('\r', rest)
  | '"' :: rest => some ('"', rest)
  | '\\' :: rest => some ('\\', rest)
  | 'u' :: rest => readCode 4 rest
  | 'U' :: rest => readCode 8 rest
  | _ => none

theorem readEscape_length {text rest : Text} {c : Char}
    (found : readEscape text = some (c, rest)) : rest.length < text.length := by
  unfold readEscape at found
  split at found
  case h_8 => exact Nat.lt_succ_of_le (readCode_length found)
  case h_9 => exact Nat.lt_succ_of_le (readCode_length found)
  all_goals grind

/-- The rest of a string in double quotes. -/
def readBasic (text : Text) : Option (Text × Text) :=
  match text with
  | [] => none
  | '"' :: rest => some ([], rest)
  | '\\' :: rest =>
      match _found : readEscape rest with
      | none => none
      | some (c, rest) => (readBasic rest).map fun (value, rest) => (c :: value, rest)
  | c :: rest =>
      if isPlain c then (readBasic rest).map fun (value, rest) => (c :: value, rest) else none
termination_by text.length
decreasing_by
  all_goals simp only [List.length_cons]
  all_goals try omega
  have := readEscape_length _found
  omega

/-- The rest of a string in single quotes. -/
def readLiteral : Reader Text
  | [] => none
  | '\'' :: rest => some ([], rest)
  | c :: rest =>
      if isPlain c then (readLiteral rest).map fun (value, rest) => (c :: value, rest) else none

/-- The end of a string over several lines, after its three closing quotes. Up to two more quotes
belong to the string. -/
def closeMultiline (quote : Char) (text : Text) : Text × Text :=
  let extra := ((text.take 2).takeWhile (· == quote)).length
  (text.take extra, text.drop extra)

/-- The rest of a string over several lines in double quotes. -/
def readMultilineBasic (text : Text) : Option (Text × Text) :=
  match text with
  | [] => none
  | '"' :: '"' :: '"' :: rest => some (closeMultiline '"' rest)
  | '\r' :: '\n' :: rest =>
      (readMultilineBasic rest).map fun (value, rest) => ('\n' :: value, rest)
  | '\\' :: rest =>
      match newline? (skipBlanks rest) with
      | some _ => readMultilineBasic (skipLines rest)
      | none =>
          match _found : readEscape rest with
          | none => none
          | some (c, rest) => (readMultilineBasic rest).map fun (value, rest) => (c :: value, rest)
  | c :: rest =>
      if isPlain c || c == '\n' then
        (readMultilineBasic rest).map fun (value, rest) => (c :: value, rest)
      else none
termination_by text.length
decreasing_by
  all_goals simp only [List.length_cons]
  all_goals try omega
  · have := skipLines_length rest
    omega
  · have := readEscape_length _found
    omega

/-- The rest of a string over several lines in single quotes. -/
def readMultilineLiteral : Reader Text
  | [] => none
  | '\'' :: '\'' :: '\'' :: rest => some (closeMultiline '\'' rest)
  | '\r' :: '\n' :: rest =>
      (readMultilineLiteral rest).map fun (value, rest) => ('\n' :: value, rest)
  | c :: rest =>
      if isPlain c || c == '\n' then
        (readMultilineLiteral rest).map fun (value, rest) => (c :: value, rest)
      else none

def readString : Reader Text
  | '"' :: '"' :: '"' :: rest => readMultilineBasic ((newline? rest).getD rest)
  | '\'' :: '\'' :: '\'' :: rest => readMultilineLiteral ((newline? rest).getD rest)
  | '"' :: rest => readBasic rest
  | '\'' :: rest => readLiteral rest
  | _ => none

end JavaRecords.Toml
