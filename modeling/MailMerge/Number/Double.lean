/-!
# Doubles as exact numbers

A finite `Float` is a sign, a natural number, its **significand**, and a power of two.
`Double.ofFloat` takes a float apart, so that rounding and printing are questions about natural
numbers, and `floatOfNat` goes the other way: it finds the float nearest to a natural number.
-/

namespace MailMerge

/-- What a float is. -/
inductive Double where
  | nan
  | infinite (negative : Bool)
  /-- A number of absolute value `significand * 2 ^ exponent`. -/
  | finite (negative : Bool) (significand : Nat) (exponent : Int)
  deriving DecidableEq, Repr

namespace Double

/-- The least exponent of a double, that of the numbers nearest to zero. -/
def leastExponent : Int := -1074

/-- The number of significands below the least one of full precision. -/
def fullPrecision : Nat := Nat.pow 2 52

/-- The exponent field that marks infinities and what is no number. -/
def specialField : Nat := 2047

/-- Takes a float apart. -/
def ofFloat (x : Float) : Double :=
  let bits := x.toBits.toNat
  let negative := bits / Nat.pow 2 63 = 1
  let field := bits / fullPrecision % Nat.pow 2 11
  let fraction := bits % fullPrecision
  if field = specialField then
    if fraction = 0 then .infinite negative else .nan
  else if field = 0 then .finite negative fraction leastExponent
  else .finite negative (fullPrecision + fraction) (leastExponent + field - 1)

end Double

/-- The fraction `num / den`, for a positive `den`, rounded to a whole number; halves go up. -/
def roundHalfUp (num den : Nat) : Nat :=
  (2 * num + den) / (2 * den)

/-- The fraction `num / den`, for a positive `den`, rounded to a whole number; halves go to the even
neighbour. -/
def roundHalfEven (num den : Nat) : Nat :=
  let whole := num / den
  let twice := 2 * (num % den)
  if twice < den ∨ (twice = den ∧ whole % 2 = 0) then whole else whole + 1

/-- The float nearest to a natural number, or infinity when that is too large for a float; of two as
near, the one with an even significand. -/
def floatOfNat (n : Nat) : Float :=
  if n = 0 then 0.0
  else
    -- `n` has one binary digit more than `n.log2`, and a significand has 53 of them
    let q := Int.ofNat n.log2 - 52
    let significand := roundHalfEven (n * Nat.pow 2 (-q).toNat) (Nat.pow 2 q.toNat)
    -- a significand that is rounded up to the next power of two carries into the exponent
    let bits := (q - Double.leastExponent).toNat * Double.fullPrecision + significand
    if bits < Double.specialField * Double.fullPrecision then Float.ofBits (UInt64.ofNat bits)
    else 1.0 / 0.0

/-- The float nearest to an integer, or an infinity. -/
def floatOfInt (n : Int) : Float :=
  if n < 0 then -floatOfNat n.natAbs else floatOfNat n.natAbs

end MailMerge
