import DivisionMicrocode.Microinstruction
/-!
# The control store

The content of every microword of the two divisions.

Both divide by shifting the dividend through the shift register: its upper half holds the partial
remainder, its lower half the dividend bits still to come, above the quotient bits found so far.
Each round shifts, subtracts the divisor, and puts the former partial remainder back where the
subtraction borrowed. A quotient bit is not kept in a register between two rounds: the choice of
the microword that starts the next round remembers it.
-/

namespace DivisionMicrocode

namespace ControlStore

/-- The operation that sets the flags from an operand. -/
def probe (x : Operand) : AluOp Operand := .and x (.constant 0xFFFF)

/-- The operation that negates an operand. -/
def negate (x : Operand) : AluOp Operand := .sub (.constant 0) x

local instance : Coe WordRegister Operand := ⟨.register⟩
local instance : Coe UnsignedWord Microword := ⟨.unsigned⟩
local instance : Coe SignedWord Microword := ⟨.signed⟩
local instance : Coe ExitWord Microword := ⟨.exit⟩
local instance : Coe Microword Branch := ⟨.goto⟩
local instance : Coe UnsignedWord Branch := ⟨fun w => .goto w⟩
local instance : Coe SignedWord Branch := ⟨fun w => .goto w⟩
local instance : Coe ExitWord Branch := ⟨fun w => .goto w⟩

open WordRegister Condition Branch

/-- The first microword of either division, which distributes the operands, keeps the address and
probes the divisor. -/
def distribute (next : Microword) : Microinstruction where
  address := .save
  moves := [(aluExt, dividendLo), (aluBuf, divisor), (addrHi, divisor)]
  alu := some (probe divisor)
  branch := next

/-- The subtraction of a round, which keeps the minuend in case it has to be put back. -/
def subtractRound (rest done : Microword) : Microinstruction where
  moves := [(addrLo, alu)]
  alu := some (.sub alu aluBuf)
  branch := test counting rest done

/-- The microwords of the unsigned division.

A branch sees the flags of the microword before. So `dvum2` leaves for the exception by the divisor
that `dvur1` has probed, and `dvum3` for the overflow if the subtraction of `dvum2` did not borrow:
then the quotient needs more than one word. A round starts at `dvum5` or `dvum6`, which shift in
the quotient bit 0 or 1 of the round before and look at the bit that they shift out. If that bit is
set, the divisor fits (`dvum7`); if not, `dvumb` looks at the borrow and `dvume` puts the partial
remainder back. The last round ends at `dvum9` or `dvumc`, which write the remainder back, the
latter provisionally: `dvumf` repairs it after a borrow. `dvum0` writes the quotient back. -/
def unsigned : UnsignedWord → Microinstruction
  | .dvur1 => distribute UnsignedWord.dvum2
  | .dvum2 =>
    { alu := some (.sub dividendHi aluBuf)
      branch := test zero ExitWord.trap0 UnsignedWord.dvum3 }
  | .dvum3 =>
    { address := .start
      moves := [(addrLo, dividendHi)]
      alu := some (probe dividendHi)
      branch := test carry UnsignedWord.dvum5 ExitWord.dvum4 }
  | .dvum5 =>
    { address := .countDown
      alu := some (.shiftLeft false)
      branch := test negative UnsignedWord.dvum7 UnsignedWord.dvum8 }
  | .dvum6 =>
    { address := .countDown
      alu := some (.shiftLeft true)
      branch := test negative UnsignedWord.dvum7 UnsignedWord.dvum8 }
  | .dvum7 => subtractRound UnsignedWord.dvum6 UnsignedWord.dvum9
  | .dvum8 => subtractRound UnsignedWord.dvumb UnsignedWord.dvumc
  | .dvumb => { branch := test carry UnsignedWord.dvume UnsignedWord.dvum6 }
  | .dvume => { alu := some (probe addrLo), branch := UnsignedWord.dvum5 }
  | .dvum9 =>
    { moves := [(dividendHi, alu)]
      alu := some (.and alu (.constant 0))
      branch := UnsignedWord.dvumd }
  | .dvumc =>
    { moves := [(dividendHi, alu)]
      alu := some (.and alu (.constant 0))
      branch := test carry UnsignedWord.dvumf UnsignedWord.dvumd }
  | .dvumd =>
    { address := .prefetch
      moves := [(aluBuf, alu)]
      alu := some (.shiftLeft true)
      branch := UnsignedWord.dvum0 }
  | .dvumf =>
    { address := .prefetch
      moves := [(aluBuf, alu), (dividendHi, addrLo)]
      alu := some (.shiftLeft false)
      branch := UnsignedWord.dvum0 }
  | .dvum0 =>
    { moves := [(dividendLo, aluExt)]
      alu := some (.sub aluExt aluBuf)
      branch := ExitWord.a1 }

/-- The microwords of the signed division.

Up to `dvs08` the absolute values of the operands are formed: of the divisor in `dvs03` to `dvs05`,
of the dividend in `dvs06` to `dvs11`, where the upper word takes the borrow of the lower one.
Without a borrow in the subtraction before `dvs08` the quotient needs more than one word. The rounds
start at `dvs09` or `dvs0a`; no bit is shifted out, since the absolute divisor is at most `0x8000`.

From `dvs14` on the signs are looked at, first that of the divisor, then that of the dividend. Each
of the four cases has its own way out: `dvs17` for two positive operands, `dvs1a` for a negative
dividend, `dvs1f` for a negative divisor, and `dvs1e` for two negative operands. Each negates what
has to be negated and leaves for the overflow if the quotient does not show its sign, and otherwise
for the write-back. -/
def signed : SignedWord → Microinstruction
  | .dvs01 => distribute SignedWord.dvs03
  | .dvs03 =>
    { alu := some (negate aluBuf)
      branch := test zero ExitWord.trap0 (test negative SignedWord.dvs05 SignedWord.dvs04) }
  | .dvs04 =>
    { address := .start
      moves := [(addrLo, dividendHi)]
      alu := some (probe dividendHi)
      branch := SignedWord.dvs06 }
  | .dvs05 =>
    { address := .start
      moves := [(addrLo, dividendHi), (aluBuf, alu)]
      alu := some (probe dividendHi)
      branch := SignedWord.dvs06 }
  | .dvs06 =>
    { alu := some (negate dividendLo)
      branch := test negative SignedWord.dvs10 SignedWord.dvs07 }
  | .dvs07 => { alu := some (.sub addrLo aluBuf), branch := SignedWord.dvs08 }
  | .dvs10 =>
    { moves := [(aluExt, alu)]
      alu := some (.subExtended (.constant 0) dividendHi)
      branch := SignedWord.dvs11 }
  | .dvs11 =>
    { moves := [(addrLo, alu)]
      alu := some (.sub addrLo aluBuf)
      branch := SignedWord.dvs08 }
  | .dvs08 =>
    { alu := some (probe addrLo)
      branch := test carry SignedWord.dvs09 ExitWord.dvumz }
  | .dvs09 =>
    { address := .countDown
      alu := some (.shiftLeft false)
      branch := SignedWord.dvs0c }
  | .dvs0a =>
    { address := .countDown
      alu := some (.shiftLeft true)
      branch := SignedWord.dvs0c }
  | .dvs0c => subtractRound SignedWord.dvs0d SignedWord.dvs0e
  | .dvs0d => { branch := test carry SignedWord.dvs0f SignedWord.dvs0a }
  | .dvs0f => { alu := some (probe addrLo), branch := SignedWord.dvs09 }
  | .dvs0e => { branch := test carry SignedWord.dvs12 SignedWord.dvs13 }
  | .dvs12 => { alu := some (.shiftLeft false), branch := SignedWord.dvs14 }
  | .dvs13 =>
    { moves := [(addrLo, alu)]
      alu := some (.shiftLeft true)
      branch := SignedWord.dvs14 }
  | .dvs14 => { alu := some (probe addrHi), branch := SignedWord.dvs15 }
  | .dvs15 =>
    { moves := [(aluBuf, aluExt)]
      alu := some (probe dividendHi)
      branch := test negative SignedWord.dvs1d SignedWord.dvs16 }
  | .dvs16 =>
    { moves := [(addrHi, addrLo)]
      alu := some (probe aluBuf)
      branch := test negative SignedWord.dvs1a SignedWord.dvs17 }
  | .dvs1d =>
    { moves := [(addrHi, addrLo)]
      alu := some (probe aluBuf)
      branch := test negative SignedWord.dvs1e SignedWord.dvs1f }
  | .dvs17 =>
    { moves := [(addrLo, alu)]
      alu := some (probe aluBuf)
      branch := test negative ExitWord.dvuma ExitWord.leaa2 }
  | .dvs1a => { alu := some (negate aluBuf), branch := SignedWord.dvs1b }
  | .dvs1b =>
    { moves := [(aluBuf, alu), (addrLo, alu)]
      alu := some (negate addrHi)
      branch := test positive ExitWord.dvum4 SignedWord.dvs1c }
  | .dvs1c =>
    { moves := [(addrHi, alu)]
      alu := some (probe aluBuf)
      branch := ExitWord.leaa2 }
  | .dvs1f => { alu := some (negate aluBuf), branch := SignedWord.dvs20 }
  | .dvs20 =>
    { moves := [(addrLo, alu), (aluBuf, alu)]
      alu := some (probe aluBuf)
      branch := test positive ExitWord.dvuma ExitWord.leaa2 }
  | .dvs1e =>
    { moves := [(aluBuf, alu), (addrLo, alu)]
      alu := some (negate addrHi)
      branch := test negative ExitWord.dvum4 SignedWord.dvs1c }

/-- The microwords of the instruction sequencer; the terminal ones are not executed here. -/
def exit : ExitWord → Option Microinstruction
  | .dvum4 => some { branch := ExitWord.dvuma }
  | .dvumz => some { branch := ExitWord.dvuma }
  | .dvuma => some { branch := ExitWord.a1 }
  | .leaa2 =>
    some
      { moves := [(dividendHi, addrHi), (dividendLo, addrLo)]
        branch := ExitWord.a1 }
  | .trap0 => none
  | .a1 => none

/-- The content of a microword; a terminal one has none. -/
def fetch : Microword → Option Microinstruction
  | .unsigned w => some (unsigned w)
  | .signed w => some (signed w)
  | .exit w => exit w

theorem fetch_eq_none_iff (w : Microword) : fetch w = none ↔ w.isTerminal = true := by
  rcases w with w | w | w
  · simp [fetch, Microword.isTerminal]
  · simp [fetch, Microword.isTerminal]
  · cases w <;> simp [fetch, exit, Microword.isTerminal, ExitWord.isTerminal]

end ControlStore

end DivisionMicrocode
