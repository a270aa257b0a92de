import DivisionMicrocode.Registers
/-!
# The arithmetic unit

The flags register is latched one microword after the arithmetic unit has produced its result. An
operation therefore hands out the flags as they stood before it, which is what a branch in the
same microword observes, and leaves its own flags for the next microword.
-/

namespace DivisionMicrocode

/-- An operation of the arithmetic unit on operands of type `α`. -/
inductive AluOp (α : Type) where
  | and (dst src : α)
  | sub (dst src : α)
  /-- The difference of the operands, less the extend flag. -/
  | subExtended (dst src : α)
  /-- A shift of the shift register by one to the left, with `inject` as its new lowest bit. -/
  | shiftLeft (inject : Bool)
deriving DecidableEq

/-- The operation with `f` applied to its operands. -/
def AluOp.map {α β : Type} (f : α → β) : AluOp α → AluOp β
  | .and dst src => .and (f dst) (f src)
  | .sub dst src => .sub (f dst) (f src)
  | .subExtended dst src => .subExtended (f dst) (f src)
  | .shiftLeft inject => .shiftLeft inject

namespace RegisterFile

/-- The registers after an operation. Only `and` and `sub` set the flags. -/
def afterAlu (r : RegisterFile) : AluOp Word → RegisterFile
  | .and dst src => { r with alu := dst &&& src, flags := r.flags.logical (dst &&& src) }
  | .sub dst src => { r with alu := dst - src, flags := Flags.subtraction dst src (dst - src) }
  | .subExtended dst src => { r with alu := dst - src - (BitVec.ofBool r.flags.extend).setWidth 16 }
  | .shiftLeft inject =>
    { r with alu := r.alu.shiftConcat r.aluExt.msb, aluExt := r.aluExt.shiftConcat inject }

/-- Issues an operation: the flags that the same microword sees, and the registers after it. -/
def issue (r : RegisterFile) (op : AluOp Word) : Flags × RegisterFile := (r.flags, r.afterAlu op)

end RegisterFile

end DivisionMicrocode
