import MailMerge.Number.Shortest

/-!
# The text of a number

Whole numbers below `10 ^ 15` are written without a fraction, and zero without a sign. Other numbers
are written with their shortest digits: in positional form from `10 ^ (-5)` up to `10 ^ 16`, with at
least one digit on each side of the point, and in scientific form elsewhere. What is no number is
written `NaN`, and the infinities `Infinity` and `-Infinity`.
-/

namespace MailMerge

/-- Whole numbers from here on are written with a fraction. -/
def wholeBound : Nat := Nat.pow 10 15

/-- The decimal digits of a natural number. -/
def decimalDigits (n : Nat) : List Char :=
  Nat.toDigits 10 n

/-- The decimal text of an integer. -/
def integerText (n : Int) : List Char :=
  if n < 0 then '-' :: decimalDigits n.natAbs else decimalDigits n.natAbs

/-- The text of a positive decimal. -/
def Decimal.text (d : Decimal) : List Char :=
  let digits := decimalDigits d.digits
  -- the number lies between `10 ^ (point - 1)` and `10 ^ point`
  let point := Int.ofNat digits.length + d.exponent
  if 0 ≤ d.exponent ∧ point ≤ 16 then
    digits ++ List.replicate d.exponent.toNat '0' ++ ".0".toList
  else if 0 < point ∧ point ≤ 16 then
    digits.take point.toNat ++ '.' :: digits.drop point.toNat
  else if -5 < point ∧ point ≤ 0 then
    "0.".toList ++ List.replicate (-point).toNat '0' ++ digits
  else
    let fraction := if digits.length = 1 then [] else '.' :: digits.drop 1
    digits.take 1 ++ fraction ++ 'e' :: integerText (point - 1)

/-- The whole number that `significand * 2 ^ exponent` is, if it is one. -/
def whole? (significand : Nat) (exponent : Int) : Option Nat :=
  let divisor := Nat.pow 2 (-exponent).toNat
  if significand % divisor = 0 then some (significand / divisor * Nat.pow 2 exponent.toNat)
  else none

/-- The text of a number. -/
def numberText (x : Float) : List Char :=
  match Double.ofFloat x with
  | .nan => "NaN".toList
  | .infinite negative => if negative then "-Infinity".toList else "Infinity".toList
  | .finite negative significand exponent =>
    let signed (s : List Char) := if negative then '-' :: s else s
    match (whole? significand exponent).filter (· < wholeBound) with
    | some 0 => ['0']
    | some n => signed (decimalDigits n)
    | none => signed (shortest significand exponent).text

end MailMerge
