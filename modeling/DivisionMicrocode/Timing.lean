import DivisionMicrocode.Arithmetic
/-!
# The timing of the divisions

The clocks that the two divisions take, as functions of the operands. Every microword takes two
clocks, and the terminal one is not counted. A round takes longer if its subtraction has to be
looked at, and longer still if it has to be undone; the last round of each division takes the same
time whatever happens.
-/

namespace DivisionMicrocode

/-- The divisor in the upper word, where the partial remainder stands. -/
def aligned (divisor : Word) : Long := Long.ofWords divisor 0

/-- The clocks of some rounds of the unsigned division, which start with the given partial
remainder and dividend bits. A bit shifted out says that the divisor fits. -/
def unsignedRounds (divisor : Long) : Nat → Long → Nat
  | 0, _ => 0
  | n + 1, a =>
    let shifted := a <<< 1
    if a.msb then
      4 + unsignedRounds divisor n (shifted - divisor)
    else if divisor ≤ shifted then
      6 + unsignedRounds divisor n (shifted - divisor)
    else
      8 + unsignedRounds divisor n shifted

/-- The clocks of some rounds of the signed division. -/
def signedRounds (divisor : Long) : Nat → Long → Nat
  | 0, _ => 0
  | n + 1, a =>
    let shifted := a <<< 1
    if divisor ≤ shifted then
      6 + signedRounds divisor n (shifted - divisor)
    else
      8 + signedRounds divisor n shifted

def unsignedClocks (dividend : Long) (divisor : Word) : Nat :=
  if divisor = 0 then
    4
  else if 0x10000 ≤ dividend.toNat / divisor.toNat then
    10
  else
    6 + unsignedRounds (aligned divisor) 15 dividend + 10

/-- The clocks of the signed division up to the test of the absolute values. -/
def signedSetupClocks (dividend : Long) : Nat := if dividend.msb then 14 else 12

/-- The clocks of the signed division from the look at the signs to the end. -/
def signedFixupClocks (dividend : Long) (divisor : Word) : Nat :=
  if divisor.msb then 10 else if dividend.msb then 12 else 8

def signedClocks (dividend : Long) (divisor : Word) : Nat :=
  if divisor = 0 then
    4
  else if 0x10000 ≤ magnitude dividend / magnitude divisor then
    signedSetupClocks dividend + 4
  else
    signedSetupClocks dividend +
      signedRounds (aligned (BitVec.ofNat 16 (magnitude divisor))) 15
        (BitVec.ofNat 32 (magnitude dividend)) +
      10 + signedFixupClocks dividend divisor

def Instruction.clocks (i : Instruction) (dividend : Long) (divisor : Word) : Nat :=
  match i with
  | divu => unsignedClocks dividend divisor
  | divs => signedClocks dividend divisor

end DivisionMicrocode
