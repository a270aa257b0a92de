import DivisionMicrocode.Microword
/-!
# Division instructions and their outcomes

The two division instructions, with the microword each one enters the control store at, and the
three ways a division ends, with the microword the instruction sequencer continues at.
-/

namespace DivisionMicrocode

inductive Instruction where
  | divu
  | divs
deriving DecidableEq

namespace Instruction

/-- The mnemonic of an instruction. -/
def text : Instruction → String
  | divu => "divu"
  | divs => "divs"

/-- The instruction with a given mnemonic, in lower case. -/
def ofText? (s : String) : Option Instruction := [divu, divs].find? (·.text == s)

/-- The microword at which an instruction enters the control store. -/
def entry : Instruction → Microword
  | divu => .unsigned .dvur1
  | divs => .signed .dvs01

@[simp] theorem ofText?_text (i : Instruction) : ofText? i.text = some i := by
  cases i <;> rfl

theorem text_injective : Function.Injective text := by
  intro i i' h
  apply Option.some.inj
  rw [← ofText?_text, h, ofText?_text]

end Instruction

/-- How a division ends. -/
inductive Outcome where
  /-- The dividend register holds the remainder and the quotient. -/
  | normal
  /-- The divisor was zero; the dividend register is as it was. -/
  | divisionByZero
  /-- The quotient does not fit into a word; the dividend register is as it was. -/
  | overflow
deriving DecidableEq

namespace Outcome

def text : Outcome → String
  | normal => "Normal"
  | divisionByZero => "DivisionByZero"
  | overflow => "Overflow"

def ofText? (s : String) : Option Outcome :=
  [normal, divisionByZero, overflow].find? (·.text == s)

/-- The microword of the instruction sequencer that continues after the division. -/
def continuation : Outcome → ExitWord
  | divisionByZero => .trap0
  | normal => .a1
  | overflow => .a1

@[simp] theorem ofText?_text (o : Outcome) : ofText? o.text = some o := by
  cases o <;> rfl

theorem text_injective : Function.Injective text := by
  intro o o' h
  apply Option.some.inj
  rw [← ofText?_text, h, ofText?_text]

@[simp] theorem isTerminal_continuation (o : Outcome) : o.continuation.isTerminal = true := by
  cases o <;> rfl

end Outcome

end DivisionMicrocode
