import JavaRecords.Decimal.Double

set_option autoImplicit false

namespace JavaRecords.Double

/-- A power of ten and a quarter of the last place of a number, as multiples of a common unit. -/
def commonUnit (exponent power : Int) : Nat × Nat :=
  (Nat.pow 10 power.toNat * Nat.pow 2 (2 - exponent).toNat,
    Nat.pow 2 (exponent - 2).toNat * Nat.pow 10 (-power).toNat)

/-- Whether `count * 10 ^ power` is read as the number `mantissa * 2 ^ exponent`: it lies no further
than halfway to a neighbour, and only an even mantissa takes in the points halfway. The neighbour
below the first full mantissa is only half as far as the one above. -/
def readsBack (mantissa : Nat) (exponent power : Int) (count : Nat) : Bool :=
  let (step, quarter) := commonUnit exponent power
  let below := if mantissa = leastFull ∧ -1074 < exponent then 1 else 2
  let low := (4 * mantissa - below) * quarter
  let high := (4 * mantissa + 2) * quarter
  if mantissa % 2 = 0 then low ≤ count * step && count * step ≤ high
  else low < count * step && count * step < high

/-- How often a power of ten goes into a number, if the number can be read back from that. -/
def multiple? (mantissa : Nat) (exponent power : Int) : Option Nat :=
  let (step, quarter) := commonUnit exponent power
  let value := 4 * mantissa * quarter
  let lower := value / step
  let reads := readsBack mantissa exponent power
  if reads lower && (!reads (lower + 1) || 2 * (value % step) < step) then some lower
  else if reads (lower + 1) then some (lower + 1)
  else none

/-- The powers of ten that a shortest decimal can need, the largest first. -/
def powers : List Int := (List.range 633).map fun index => (308 : Int) - Int.ofNat index

/-- The digits and the power of ten of the shortest decimal of a positive number: a multiple of the
largest power of ten that has one which reads back as the number. -/
def shortest? (mantissa : Nat) (exponent : Int) : Option (Nat × Int) :=
  powers.findSome? fun power => (multiple? mantissa exponent power).map fun count => (count, power)

/-- The decimal `digits * 10 ^ power` written with a point and at least one digit on both sides. -/
def positional (digits : Nat) (power : Int) : String :=
  let scaled := digits * Nat.pow 10 power.toNat
  let unit := Nat.pow 10 (-power).toNat
  let places := (Nat.toDigits 10 (unit + scaled % unit)).drop 1
  let fraction := (places.reverse.dropWhile (· == '0')).reverse
  toString (scaled / unit) ++ "." ++ (if fraction.isEmpty then "0" else String.ofList fraction)

/-- The decimal that a number is exactly. -/
def exactly (mantissa : Nat) (exponent : Int) : Nat × Int :=
  (mantissa * Nat.pow 2 exponent.toNat * Nat.pow 5 (-exponent).toNat, -(-exponent).toNat)

/-- A number as it is shown: its shortest decimal, never with an exponent. -/
def text : Double → String
  | .finite negative mantissa exponent =>
      let (digits, power) := (shortest? mantissa exponent).getD (exactly mantissa exponent)
      (if negative then "-" else "") ++ positional digits power
  | .infinite negative => if negative then "-inf" else "inf"
  | .nan => "NaN"

end JavaRecords.Double
