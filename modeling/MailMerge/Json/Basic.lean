import MailMerge.Number.Scaled

/-!
# JSON texts

A `Json` is a JSON text taken apart, with its numbers and strings as they are written. What a
numeral or a string literal stands for is a second question, which may have no answer: a numeral can
be too large for a float, and an escape can name one half of a surrogate pair.
-/

namespace MailMerge

/-- A number as it is written. -/
structure Numeral where
  negative : Bool
  /-- The digits before the point. -/
  whole : List Char
  /-- The digits after the point; there are none without a point. -/
  fraction : List Char
  exponent : Option Int
  deriving DecidableEq, Repr

namespace Numeral

/-- The number that a list of decimal digits spells. -/
def natOfDigits (digits : List Char) : Nat :=
  digits.foldl (fun n c => 10 * n + (c.toNat - '0'.toNat)) 0

/-- The float that is meant, unless the number is too large for one. -/
def float? (n : Numeral) : Option Float :=
  floatOfDigits? n.negative n.whole n.fraction (n.exponent.getD 0)

/-- The natural number that is written without sign, point and exponent. -/
def nat? (n : Numeral) : Option Nat :=
  if !n.negative && n.fraction.isEmpty && n.exponent.isNone then some (natOfDigits n.whole)
  else none

/-- The integer that is written without point and exponent. -/
def int? (n : Numeral) : Option Int :=
  if n.fraction.isEmpty && n.exponent.isNone then
    let magnitude := Int.ofNat (natOfDigits n.whole)
    some (if n.negative then -magnitude else magnitude)
  else none

end Numeral

/-- A part of a string literal. -/
inductive Letter where
  /-- A character, written plainly or by a short escape. -/
  | char (c : Char)
  /-- A code unit, written by its number. -/
  | unit (n : Nat)
  deriving DecidableEq, Repr

namespace Letter

/-- The character that two surrogate code units encode together. -/
def ofSurrogates? (high low : Nat) : Option Char :=
  if 0xD800 ≤ high ∧ high ≤ 0xDBFF ∧ 0xDC00 ≤ low ∧ low ≤ 0xDFFF then
    some (Char.ofNat (0x10000 + (high - 0xD800) * 0x400 + (low - 0xDC00)))
  else none

/-- The characters that a string literal stands for. -/
def chars? : List Letter → Option (List Char)
  | [] => some []
  | char c :: letters => (chars? letters).map (c :: ·)
  | [unit n] => if n.isValidChar then some [Char.ofNat n] else none
  | unit n :: char c :: letters =>
    if n.isValidChar then (chars? letters).map (Char.ofNat n :: c :: ·) else none
  | unit n :: unit m :: letters =>
    if n.isValidChar then (chars? (unit m :: letters)).map (Char.ofNat n :: ·)
    else
      match ofSurrogates? n m with
      | some c => (chars? letters).map (c :: ·)
      | none => none

/-- The text that a string literal stands for. -/
def text? (letters : List Letter) : Option String :=
  (chars? letters).map String.ofList

end Letter

/-- A JSON text taken apart. The members of an object stand in the order of the text, and there may
be several under one name. -/
inductive Json where
  | null
  | bool (b : Bool)
  | number (n : Numeral)
  | string (letters : List Letter)
  | array (items : List Json)
  | object (members : List (List Letter × Json))
  deriving Inhabited

namespace Json

/-- The last member of an object under a name. -/
def member? (name : String) : Json → Option Json
  | object members => (members.reverse.find? fun m => Letter.text? m.1 == some name).map Prod.snd
  | _ => none

end Json

end MailMerge
