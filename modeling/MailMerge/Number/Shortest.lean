import MailMerge.Number.Double

/-!
# Shortest decimals

Between a double and its two neighbours lie the numbers that round to it: an interval that has its
ends exactly when the significand is even. A multiple of a power of ten in this interval is a
decimal that reads back as the double. `shortest` takes the largest power of ten with such a
multiple, so that no decimal of fewer digits reads back, and of its multiples in the interval the
nearest; of two as near, the even one.
-/

namespace MailMerge

/-- A decimal number, `digits * 10 ^ exponent`. -/
structure Decimal where
  digits : Nat
  exponent : Int
  deriving DecidableEq, Repr

namespace Shortest

/-- The numbers that round to a double, in quarters of the unit of its last place; only below a
power of two is the neighbour nearer than a unit. -/
def interval (significand : Nat) (exponent : Int) : Nat × Nat :=
  let below :=
    if significand = Double.fullPrecision ∧ Double.leastExponent < exponent then 1 else 2
  (4 * significand - below, 4 * significand + 2)

/-- The multiple of `10 ^ k` that stands for `significand * 2 ^ exponent`, if one does. -/
def onGrid? (significand : Nat) (exponent k : Int) : Option Nat :=
  let quarter := exponent - 2
  let step := Nat.pow 10 k.toNat * Nat.pow 2 (-quarter).toNat
  let scale := Nat.pow 10 (-k).toNat * Nat.pow 2 quarter.toNat
  let (low, high) := interval significand exponent
  let inside (d : Nat) : Bool :=
    if significand % 2 = 0 then low * scale ≤ d * step ∧ d * step ≤ high * scale
    else low * scale < d * step ∧ d * step < high * scale
  let centre := 4 * significand * scale
  let d := centre / step
  match inside d, inside (d + 1) with
  | false, false => none
  | true, false => some d
  | false, true => some (d + 1)
  | true, true =>
    let below := centre - d * step
    let above := (d + 1) * step - centre
    if below < above ∨ (below = above ∧ d % 2 = 0) then some d else some (d + 1)

/-- Tries the powers of ten downwards from `10 ^ k`. -/
def search (significand : Nat) (exponent : Int) : Nat → Int → Decimal
  | 0, k => ⟨0, k⟩
  | tries + 1, k =>
    match onGrid? significand exponent k with
    | some d => ⟨d, k⟩
    | none => search significand exponent tries (k - 1)

end Shortest

/-- The shortest decimal that reads back as the double `significand * 2 ^ exponent`, for a positive
significand. The search starts above the number itself and passes seventeen places, which are
enough for every double. -/
def shortest (significand : Nat) (exponent : Int) : Decimal :=
  let size := exponent + Int.ofNat significand.log2 + 1
  Shortest.search significand exponent 21 (Int.fdiv (size * 1233) 4096 + 2)

end MailMerge
