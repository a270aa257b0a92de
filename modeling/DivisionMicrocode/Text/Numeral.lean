/-!
# Numerals

Natural numbers below `2 ^ bits` in a radix of up to 36. A numeral is written with the lower-case
digits and padded with zeros to a least width. It is read with an optional plus sign, any number of
leading zeros, and digits of either case. Reading goes from left to right and stops at the first
fault: at a character that is no digit, or at a digit that makes the number too large.
-/

namespace DivisionMicrocode.Text

/-- What is wrong with a text that is no numeral. -/
inductive NumeralError where
  | empty
  | invalidDigit
  | tooLarge
deriving DecidableEq

/-- What is reported of a text that is no numeral. -/
def NumeralError.message : NumeralError → String
  | empty => "cannot parse integer from empty string"
  | invalidDigit => "invalid digit found in string"
  | tooLarge => "number too large to fit in target type"

namespace Numeral

/-- The value of an ASCII letter or digit as a digit. -/
def digitValue? (c : Char) : Option Nat :=
  if '0' ≤ c ∧ c ≤ '9' then
    some (c.toNat - '0'.toNat)
  else if 'a' ≤ c ∧ c ≤ 'z' then
    some (c.toNat - 'a'.toNat + 10)
  else if 'A' ≤ c ∧ c ≤ 'Z' then
    some (c.toNat - 'A'.toNat + 10)
  else
    none

/-- The value of a digit in a radix. -/
def digit? (radix : Nat) (c : Char) : Option Nat := (digitValue? c).filter (· < radix)

/-- The number below `bound` that digits stand for when they follow digits that stand for `acc`. -/
def accumulate (radix bound : Nat) : Nat → List Char → Except NumeralError Nat
  | acc, [] => .ok acc
  | acc, c :: cs =>
    match digit? radix c with
    | none => .error .invalidDigit
    | some d =>
      if acc * radix + d < bound then
        accumulate radix bound (acc * radix + d) cs
      else
        .error .tooLarge

/-- The digits of a numeral: a plus sign counts as a sign only before another character. -/
def unsigned : List Char → List Char
  | '+' :: c :: cs => c :: cs
  | cs => cs

/-- Reads a numeral of the given radix below `2 ^ bits`. -/
def read (radix bits : Nat) (cs : List Char) : Except NumeralError (BitVec bits) :=
  if cs.isEmpty then
    .error .empty
  else
    (accumulate radix (1 <<< bits) 0 (unsigned cs)).map (BitVec.ofNat bits)

/-- Writes a number in the given radix, with zeros in front up to the given width. -/
def write (radix width n : Nat) : List Char := (Nat.toDigits radix n).leftpad width '0'

end Numeral

end DivisionMicrocode.Text
