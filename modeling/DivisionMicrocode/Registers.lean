import DivisionMicrocode.Flags
import DivisionMicrocode.Microword
/-!
# The register file

The registers that the division microcode works on. The dividend register doubles as the result
register: a completed division leaves the remainder in its upper word and the quotient in its
lower word.
-/

namespace DivisionMicrocode

structure RegisterFile where
  dividendHi : Word := 0
  dividendLo : Word := 0
  divisor : Word := 0
  /-- The address unit's value on entry, from which the next prefetch address is computed. -/
  pcScratch : Long := 0
  /-- The result of the arithmetic unit, and the upper half of its shift register. -/
  alu : Word := 0
  /-- The lower half of the shift register. -/
  aluExt : Word := 0
  aluBuf : Word := 0
  addrHi : Word := 0
  addrLo : Word := 0
  /-- The address unit, which counts the rounds of the loop. -/
  counter : Long := 0
  flags : Flags := {}
  /-- The microword that executes next. -/
  controlState : Microword := .exit .a1
  cycles : Clocks := 0
deriving DecidableEq

/-- The data registers, all of one word. -/
inductive WordRegister where
  | dividendHi | dividendLo | divisor | alu | aluExt | aluBuf | addrHi | addrLo
deriving DecidableEq

namespace RegisterFile

/-- Registers that hold the operands of a division and are clear otherwise. -/
def ofOperands (dividend : Long) (divisor : Word) : RegisterFile where
  dividendHi := dividend.high
  dividendLo := dividend.low
  divisor := divisor

/-- The two words of the dividend register as one long word. -/
def dividend (r : RegisterFile) : Long := Long.ofWords r.dividendHi r.dividendLo

/-- Where a completed division leaves the remainder. -/
def remainder (r : RegisterFile) : Word := r.dividendHi

/-- Where a completed division leaves the quotient. -/
def quotient (r : RegisterFile) : Word := r.dividendLo

@[simp] theorem dividend_ofOperands (dividend : Long) (divisor : Word) :
    (ofOperands dividend divisor).dividend = dividend :=
  Long.ofWords_high_low dividend

def read (r : RegisterFile) : WordRegister → Word
  | .dividendHi => r.dividendHi
  | .dividendLo => r.dividendLo
  | .divisor => r.divisor
  | .alu => r.alu
  | .aluExt => r.aluExt
  | .aluBuf => r.aluBuf
  | .addrHi => r.addrHi
  | .addrLo => r.addrLo

def write (r : RegisterFile) (x : WordRegister) (value : Word) : RegisterFile :=
  match x with
  | .dividendHi => { r with dividendHi := value }
  | .dividendLo => { r with dividendLo := value }
  | .divisor => { r with divisor := value }
  | .alu => { r with alu := value }
  | .aluExt => { r with aluExt := value }
  | .aluBuf => { r with aluBuf := value }
  | .addrHi => { r with addrHi := value }
  | .addrLo => { r with addrLo := value }

@[simp] theorem read_write_self (r : RegisterFile) (x : WordRegister) (value : Word) :
    (r.write x value).read x = value := by
  cases x <;> rfl

theorem read_write_of_ne (r : RegisterFile) {x y : WordRegister} (value : Word) (h : y ≠ x) :
    (r.write x value).read y = r.read y := by
  revert h
  cases x <;> cases y <;> simp [read, write]

end RegisterFile

end DivisionMicrocode
