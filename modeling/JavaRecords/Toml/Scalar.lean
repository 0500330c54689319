import JavaRecords.Toml.Quoted

set_option autoImplicit false

namespace JavaRecords.Toml

def readMoreDigits (isDigit : Char → Bool) : Reader Text
  | [] => some ([], [])
  | ['_'] => none
  | '_' :: c :: rest =>
      if isDigit c then (readMoreDigits isDigit rest).map fun (digits, rest) => (c :: digits, rest)
      else none
  | c :: rest =>
      if isDigit c then (readMoreDigits isDigit rest).map fun (digits, rest) => (c :: digits, rest)
      else some ([], c :: rest)

/-- The digits of a number, at least one and without the underscores. -/
def readDigits (isDigit : Char → Bool) : Reader Text
  | [] => none
  | c :: rest =>
      if isDigit c then (readMoreDigits isDigit rest).map fun (digits, rest) => (c :: digits, rest)
      else none

def digitsValue (base : Nat) (digits : Text) : Nat :=
  digits.foldl (fun value c => base * value + (hexValue? c).getD 0) 0

/-- A sign, if there is one: whether it is a minus sign. -/
def readSign : Text → Bool × Text
  | '+' :: rest => (false, rest)
  | '-' :: rest => (true, rest)
  | text => (false, text)

/-- A whole number in decimal digits: its sign and its digits, which start with no zero unless that
is all. -/
def readDecimal : Reader (Bool × Text) := fun text =>
  let (negative, rest) := readSign text
  match rest with
  | '0' :: rest => some ((negative, ['0']), rest)
  | _ => (readDigits Char.isDigit rest).map fun (digits, rest) => ((negative, digits), rest)

/-- The digits of a base are those with a value below it. -/
def isDigitOf (base : Nat) (c : Char) : Bool := (hexValue? c).any (· < base)

/-- The first whole number that is too large for 64 bits with a sign. -/
def integerLimit : Nat := 0x8000000000000000

/-- A whole number in some base, after the letter of that base, if it fits. -/
def readInBase (base : Nat) : Reader Value := fun text => do
  let (digits, rest) ← readDigits (isDigitOf base) text
  let value := digitsValue base digits
  guard (value < integerLimit)
  return (.integer value, rest)

/-- A whole number, if it fits. -/
def readInteger : Reader Value := fun text =>
  match text with
  | '0' :: 'x' :: rest => readInBase 16 rest
  | '0' :: 'o' :: rest => readInBase 8 rest
  | '0' :: 'b' :: rest => readInBase 2 rest
  | _ => do
      let ((negative, digits), rest) ← readDecimal text
      let value := digitsValue 10 digits
      guard (if negative then value ≤ integerLimit else value < integerLimit)
      return (.integer (if negative then -value else value), rest)

/-- The part of a number after its point. -/
def readFraction : Text → Option (Text × Text)
  | '.' :: rest => readDigits Char.isDigit rest
  | _ => none

/-- The exponent of a number: its sign and its digits. -/
def readExponent : Text → Option ((Bool × Text) × Text)
  | 'e' :: rest | 'E' :: rest =>
      let (negative, rest) := readSign rest
      (readDigits Char.isDigit rest).map fun (digits, rest) => ((negative, digits), rest)
  | _ => none

/-- The numbers without digits: their names and, after a sign, their values. -/
def readSpecial (negative : Bool) : Text → Option (Double × Text)
  | 'i' :: 'n' :: 'f' :: rest => some (.infinite negative, rest)
  | 'n' :: 'a' :: 'n' :: rest => some (.nan, rest)
  | _ => none

def written (text rest : Text) : Text := text.take (text.length - rest.length)

/-- A floating point number in decimal digits: it has a fraction, an exponent or both. -/
def readDouble : Reader Double := fun text => do
  let ((negative, digits), rest) ← readDecimal text
  let (fraction, rest) ← match rest with
    | '.' :: _ => (readFraction rest).map fun (fraction, rest) => (some fraction, rest)
    | _ => some (none, rest)
  let (exponent, rest) ← match rest with
    | 'e' :: _ | 'E' :: _ =>
        (readExponent rest).map fun (exponent, rest) => (some exponent, rest)
    | _ => some (none, rest)
  guard (fraction.isSome || exponent.isSome)
  let power : Int := match exponent with
    | none => 0
    | some (true, digits) => -(digitsValue 10 digits)
    | some (false, digits) => digitsValue 10 digits
  let fraction := fraction.getD []
  return (.ofDecimal negative (digitsValue 10 (digits ++ fraction)) (power - fraction.length), rest)

/-- A floating point number. Digits must not write the positive infinite number. -/
def readFloat : Reader Value := fun text => do
  let (negative, unsigned) := readSign text
  match readSpecial negative unsigned with
  | some (value, rest) => return (.float value, rest)
  | none =>
      let (value, rest) ← readDouble text
      guard (value ≠ .infinite false)
      return (.float value, rest)

/-- A number of exactly `count` digits. -/
def readPlaces (count : Nat) : Reader Nat := fun text => do
  let digits := text.take count
  guard (digits.length = count && digits.all Char.isDigit)
  return (digitsValue 10 digits, text.drop count)

/-- A number of two digits between two bounds. -/
def readPair (low high : Nat) : Reader Nat := fun text => do
  let (value, rest) ← readPlaces 2 text
  guard (low ≤ value && value ≤ high)
  return (value, rest)

/-- The text after a character that must come next. -/
def expect (c : Char) : Text → Option Text
  | next :: rest => if next = c then some rest else none
  | [] => none

def daysOf (year month : Nat) : Nat :=
  let leap := year % 4 = 0 && (year % 100 ≠ 0 || year % 400 = 0)
  match month with
  | 2 => if leap then 29 else 28
  | 4 | 6 | 9 | 11 => 30
  | _ => 31

def skipDate (text : Text) : Option Text := do
  let (year, rest) ← readPlaces 4 text
  let rest ← expect '-' rest
  let (month, rest) ← readPair 1 12 rest
  let rest ← expect '-' rest
  let (_, rest) ← readPair 1 (daysOf year month) rest
  return rest

def skipTime (text : Text) : Option Text := do
  let (_, rest) ← readPair 0 23 text
  let rest ← expect ':' rest
  let (_, rest) ← readPair 0 59 rest
  let rest ← expect ':' rest
  let (_, rest) ← readPair 0 60 rest
  match rest with
  | '.' :: c :: more => if c.isDigit then some (more.dropWhile Char.isDigit) else none
  | ['.'] => none
  | _ => some rest

/-- The text after a distance from universal time, if there is one. -/
def skipOffset (text : Text) : Option Text :=
  match text with
  | 'Z' :: rest | 'z' :: rest => some rest
  | '+' :: rest | '-' :: rest => do
      let (_, rest) ← readPair 0 23 rest
      let rest ← expect ':' rest
      let (_, rest) ← readPair 0 59 rest
      return rest
  | _ => some text

def skipTimeOfDate (text : Text) : Option Text :=
  match text with
  | 'T' :: rest | 't' :: rest | ' ' :: rest =>
      match skipTime rest with
      | some rest => skipOffset rest
      | none => some text
  | _ => some text

def readDateTime : Reader Value := fun text => do
  let rest ← match skipDate text with
    | some rest => skipTimeOfDate rest
    | none => skipTime text
  return (.dateTime (written text rest), rest)

def readScalar : Reader Value := fun text =>
  match text with
  | '"' :: _ | '\'' :: _ => (readString text).map fun (value, rest) => (.string value, rest)
  | 't' :: 'r' :: 'u' :: 'e' :: rest => some (.boolean true, rest)
  | 'f' :: 'a' :: 'l' :: 's' :: 'e' :: rest => some (.boolean false, rest)
  | _ => readDateTime text <|> readFloat text <|> readInteger text

end JavaRecords.Toml
