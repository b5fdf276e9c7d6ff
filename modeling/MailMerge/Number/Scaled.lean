import MailMerge.Number.Double

/-!
# Floats from decimal numerals

A numeral becomes a float in two steps. As many of its leading digits as a 64-bit word can hold make
a **significand**, which is rounded to a float. This is then multiplied or divided by a power of
ten, which is a float too. Every step rounds for itself, so the result of `floatOfDigits?` can be a
neighbour of the float that is nearest to the numeral. Digits that the word has no room for do not
count.
-/

namespace MailMerge

/-- The number that comes of writing decimal digits behind `n`, and the digits that are left from
the first one on with which it would be no 64-bit word. -/
def appendDigits (n : Nat) : List Char → Nat × List Char
  | [] => (n, [])
  | c :: digits =>
    let next := 10 * n + (c.toNat - '0'.toNat)
    if next < UInt64.size then appendDigits next digits else (n, c :: digits)

/-- The float nearest to a power of ten. -/
def powerOfTen (k : Nat) : Float :=
  floatOfNat (Nat.pow 10 k)

/-- The largest power of ten that is a float. -/
def largestPower : Nat := 308

/-- A float times `10 ^ exponent`, or `none` when that is too large for a float. What is divided by
more than the largest power of ten is divided by that first. -/
def scale? (x : Float) (exponent : Int) : Option Float :=
  if x == 0.0 then some x
  else if Int.ofNat largestPower < exponent then none
  else if 0 ≤ exponent then
    let scaled := x * powerOfTen exponent.toNat
    if scaled.isInf then none else some scaled
  else if -Int.ofNat largestPower ≤ exponent then some (x / powerOfTen (-exponent).toNat)
  else scale? (x / powerOfTen largestPower) (exponent + Int.ofNat largestPower)
termination_by (-exponent).toNat
decreasing_by
  simp only [largestPower, Int.ofNat_eq_natCast] at *
  omega

/-- The float for the digits before and after the point, times `10 ^ exponent`, or `none` when that
is too large for a float. -/
def floatOfDigits? (negative : Bool) (whole fraction : List Char) (exponent : Int) :
    Option Float :=
  let (start, dropped) := appendDigits 0 whole
  let (significand, unread) := appendDigits start fraction
  let places := Int.ofNat fraction.length - Int.ofNat unread.length
  (scale? (floatOfNat significand) (exponent + Int.ofNat dropped.length - places)).map fun x =>
    if negative then -x else x

end MailMerge
