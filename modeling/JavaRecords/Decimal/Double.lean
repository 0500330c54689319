set_option autoImplicit false

namespace JavaRecords

/-- A floating point number of 64 bits: a finite one is a whole mantissa below `2 ^ 53` times a
power of two. Everything is computed on whole numbers, so nothing is rounded twice. -/
inductive Double where
  /-- The number `mantissa * 2 ^ exponent`, or its negative. -/
  | finite (negative : Bool) (mantissa : Nat) (exponent : Int)
  | infinite (negative : Bool)
  | nan
  deriving DecidableEq, Repr

namespace Double

/-- The first mantissa that needs all 53 bits. -/
def leastFull : Nat := 0x10000000000000

/-- A quotient rounded to a whole number; a half goes to the even one. -/
def roundDiv (num den : Nat) : Nat :=
  let twice := 2 * (num % den)
  if den < twice ∨ (twice = den ∧ num / den % 2 = 1) then num / den + 1 else num / den

/-- The mantissa and the exponent of the number nearest to a positive quotient. The first exponent
tried leaves a quotient between `2 ^ 52` and `2 ^ 54`, so it is right or one too small. -/
def nearest (num den : Nat) : Nat × Int :=
  let mantissa (exponent : Int) (divide : Nat → Nat → Nat) : Nat :=
    divide (num * Nat.pow 2 (-exponent).toNat) (den * Nat.pow 2 exponent.toNat)
  let full : Int := num.log2 - den.log2 - 53
  let least := if full < -1074 then -1074 else full
  let exponent := if mantissa least (· / ·) < 2 * leastFull then least else least + 1
  let rounded := mantissa exponent roundDiv
  if rounded = 2 * leastFull then (leastFull, exponent + 1) else (rounded, exponent)

/-- The number nearest to `digits * 10 ^ exponent`. A power of ten that alone shows the number to be
zero or infinite is not computed. -/
def ofDecimal (negative : Bool) (digits : Nat) (exponent : Int) : Double :=
  if digits = 0 ∨ exponent < -(digits.log2 + 400) then .finite negative 0 0
  else if 400 < exponent then .infinite negative
  else
    let (mantissa, exponent) :=
      nearest (digits * Nat.pow 10 exponent.toNat) (Nat.pow 10 (-exponent).toNat)
    if 971 < exponent then .infinite negative else .finite negative mantissa exponent

end Double

end JavaRecords
