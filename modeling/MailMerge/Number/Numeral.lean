/-!
# Numerals

Numbers that a run of digits spells, in any base up to sixteen. A numeral has at least one digit and
nothing else, neither sign nor white space; zeros in front do not count.
-/

namespace MailMerge

/-- The value of a digit in the given base, up to sixteen. -/
def digitValue? (base : Nat) (c : Char) : Option Nat :=
  let value? :=
    if '0' ≤ c ∧ c ≤ '9' then some (c.toNat - '0'.toNat)
    else if 'a' ≤ c ∧ c ≤ 'f' then some (c.toNat - 'a'.toNat + 10)
    else if 'A' ≤ c ∧ c ≤ 'F' then some (c.toNat - 'A'.toNat + 10)
    else none
  value?.filter (· < base)

/-- The number that a run of digits spells in the given base. -/
def numeral? (base : Nat) (s : List Char) : Option Nat :=
  if s.isEmpty then none
  else s.foldlM (fun n c => (digitValue? base c).map (base * n + ·)) 0

/-- The largest 32-bit word. -/
def maxWord : Nat := UInt32.size - 1

/-- The number that a run of decimal digits spells, if it is a 32-bit word. Any number of zeros in
front is taken to be read, as short runs of them are: `007` spells seven. This is an assumption
about the parser of words, which is not part of the program. -/
def word? (s : List Char) : Option Nat :=
  (numeral? 10 s).filter (· ≤ maxWord)

end MailMerge
