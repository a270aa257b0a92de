import DivisionMicrocode.Outcome
import DivisionMicrocode.Word
/-!
# The arithmetic of the divisions

The results of the two divisions as functions of the operands. The unsigned division is that of
the natural numbers. The signed division divides the absolute values, gives the quotient the sign
that the operands ask for and the remainder the sign of the dividend, and fails if the quotient
does not show the sign it was given.
-/

namespace DivisionMicrocode

/-- What a division leaves in the dividend register, and how it ends. -/
structure DivisionResult where
  remainder : Word
  quotient : Word
  outcome : Outcome
deriving DecidableEq

/-- The result of a division that leaves the dividend as it was. -/
def DivisionResult.unchanged (dividend : Long) (outcome : Outcome) : DivisionResult where
  remainder := dividend.high
  quotient := dividend.low
  outcome := outcome

/-- The absolute value of a word that is read as a signed number. -/
def magnitude {n : Nat} (a : BitVec n) : Nat := (if a.msb then -a else a).toNat

/-- The word with the given absolute value, negated if so asked. -/
def withSign (negative : Bool) (a : Word) : Word := if negative then -a else a

def unsignedResult (dividend : Long) (divisor : Word) : DivisionResult :=
  if divisor = 0 then
    .unchanged dividend .divisionByZero
  else if 0x10000 ≤ dividend.toNat / divisor.toNat then
    .unchanged dividend .overflow
  else
    { remainder := BitVec.ofNat 16 (dividend.toNat % divisor.toNat)
      quotient := BitVec.ofNat 16 (dividend.toNat / divisor.toNat)
      outcome := .normal }

/-- Whether a quotient shows the sign that it was given; zero shows either. -/
def showsSign (negative : Bool) (quotient : Word) : Bool :=
  if negative then quotient.msb || quotient == 0 else !quotient.msb

def signedResult (dividend : Long) (divisor : Word) : DivisionResult :=
  let quotient := magnitude dividend / magnitude divisor
  let remainder := magnitude dividend % magnitude divisor
  let negative := dividend.msb ^^ divisor.msb
  let signedQuotient := withSign negative (BitVec.ofNat 16 quotient)
  if divisor = 0 then
    .unchanged dividend .divisionByZero
  else if 0x10000 ≤ quotient then
    .unchanged dividend .overflow
  else if showsSign negative signedQuotient then
    { remainder := withSign dividend.msb (BitVec.ofNat 16 remainder)
      quotient := signedQuotient
      outcome := .normal }
  else
    .unchanged dividend .overflow

def Instruction.result (i : Instruction) (dividend : Long) (divisor : Word) : DivisionResult :=
  match i with
  | divu => unsignedResult dividend divisor
  | divs => signedResult dividend divisor

end DivisionMicrocode
