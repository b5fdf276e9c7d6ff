/-!
# Base 64

Bytes written in the standard alphabet of base 64. `decode?` reads the canonical form only: groups
of four characters, the last one filled up with `=`, and no bits left over that are not zero.
-/

namespace MailMerge.Text.Base64

/-- The six bits that a character of the alphabet stands for. -/
def sextet? (c : Char) : Option Nat :=
  if 'A' ≤ c ∧ c ≤ 'Z' then some (c.toNat - 'A'.toNat)
  else if 'a' ≤ c ∧ c ≤ 'z' then some (c.toNat - 'a'.toNat + 26)
  else if '0' ≤ c ∧ c ≤ '9' then some (c.toNat - '0'.toNat + 52)
  else if c = '+' then some 62
  else if c = '/' then some 63
  else none

/-- The bytes of a group of four characters; only the last group may be filled up. -/
def group? (a b c d : Char) (last : Bool) : Option (List UInt8) := do
  let a ← sextet? a
  let b ← sextet? b
  if last && c == '=' && d == '=' then
    guard (b % 16 = 0)
    return [UInt8.ofNat (a * 4 + b / 16)]
  let c ← sextet? c
  if last && d == '=' then
    guard (c % 4 = 0)
    return [UInt8.ofNat (a * 4 + b / 16), UInt8.ofNat (b % 16 * 16 + c / 4)]
  let d ← sextet? d
  return [UInt8.ofNat (a * 4 + b / 16), UInt8.ofNat (b % 16 * 16 + c / 4),
    UInt8.ofNat (c % 4 * 64 + d)]

/-- The bytes that a text stands for. -/
def decode? : List Char → Option (List UInt8)
  | [] => some []
  | a :: b :: c :: d :: rest => do
    let bytes ← group? a b c d rest.isEmpty
    let others ← decode? rest
    return bytes ++ others
  | _ => none

end MailMerge.Text.Base64
