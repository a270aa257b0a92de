import DivisionMicrocode.Alu
/-!
# Microinstructions

What one microword does, as data: the address unit's operation, the moves between data registers,
the operation of the arithmetic unit, and the choice of the next microword. The moves come first,
so the arithmetic unit sees what they have written; the branch comes last and sees the flags as
they stood when the microword began.
-/

namespace DivisionMicrocode

/-- What the address unit does. -/
inductive AddressOp where
  /-- Nothing. -/
  | idle
  /-- Keep the address for the prefetch after the division. -/
  | save
  /-- Start to count the rounds of the loop, one for each bit of the quotient. -/
  | start
  /-- Count one round. -/
  | countDown
  /-- Compute the address of the prefetch from the kept one. -/
  | prefetch
deriving DecidableEq

/-- An operand of the arithmetic unit. -/
inductive Operand where
  | register (x : WordRegister)
  | constant (value : Word)
deriving DecidableEq

/-- What a branch asks. -/
inductive Condition where
  | zero
  | negative
  | carry
  /-- Neither negative nor zero. -/
  | positive
  /-- The address unit has rounds left to count. -/
  | counting
deriving DecidableEq

/-- The choice of the next microword. -/
inductive Branch where
  | goto (next : Microword)
  | test (c : Condition) (yes no : Branch)

/-- The content of a microword. -/
structure Microinstruction where
  address : AddressOp := .idle
  /-- Moves from a data register, second, to another, first. -/
  moves : List (WordRegister × WordRegister) := []
  alu : Option (AluOp Operand) := none
  branch : Branch

/-- Rounds of the loop, one for each bit of a quotient. -/
def loopCount : Long := 16

namespace RegisterFile

/-- The registers after an operation of the address unit. -/
def afterAddress (r : RegisterFile) : AddressOp → RegisterFile
  | .idle => r
  | .save => { r with pcScratch := r.counter }
  | .start => { r with counter := loopCount }
  | .countDown => { r with counter := r.counter - 1 }
  | .prefetch => { r with counter := r.pcScratch + 2 }

/-- The registers after a move. -/
def afterMove (r : RegisterFile) (m : WordRegister × WordRegister) : RegisterFile :=
  r.write m.1 (r.read m.2)

/-- The word that an operand stands for. -/
def operand (r : RegisterFile) : Operand → Word
  | .register x => r.read x
  | .constant value => value

/-- The flags that a branch sees and the registers after the arithmetic unit, which may be idle. -/
def issue? (r : RegisterFile) : Option (AluOp Operand) → Flags × RegisterFile
  | none => (r.flags, r)
  | some op => r.issue (op.map r.operand)

end RegisterFile

/-- Whether a condition holds of the flags and the address unit. -/
def Condition.holds (f : Flags) (counter : Long) : Condition → Bool
  | zero => f.zero
  | negative => f.negative
  | carry => f.carry
  | positive => !f.negative && !f.zero
  | counting => counter != 0

/-- The microword that a branch chooses. -/
def Branch.target (f : Flags) (counter : Long) : Branch → Microword
  | goto next => next
  | test c yes no => if c.holds f counter then yes.target f counter else no.target f counter

/-- The registers after a microinstruction, the next microword included. -/
def RegisterFile.perform (r : RegisterFile) (i : Microinstruction) : RegisterFile :=
  let moved := i.moves.foldl afterMove (r.afterAddress i.address)
  let (seen, after) := moved.issue? i.alu
  { after with controlState := i.branch.target seen after.counter }

namespace RegisterFile

/-! ## What a microinstruction leaves alone

Only the address unit changes the counter, and nothing before the arithmetic unit changes the
flags. So a branch depends on the flags and on the counter alone. -/

@[simp] theorem counter_afterMove (r : RegisterFile) (m : WordRegister × WordRegister) :
    (r.afterMove m).counter = r.counter := by
  obtain ⟨x, y⟩ := m
  cases x <;> rfl

@[simp] theorem counter_foldl_afterMove (r : RegisterFile)
    (ms : List (WordRegister × WordRegister)) : (ms.foldl afterMove r).counter = r.counter := by
  induction ms generalizing r with
  | nil => rfl
  | cons m ms ih => rw [List.foldl_cons, ih, counter_afterMove]

@[simp] theorem counter_issue? (r : RegisterFile) (op : Option (AluOp Operand)) :
    (r.issue? op).2.counter = r.counter := by
  rcases op with _ | op
  · rfl
  · cases op <;> rfl

@[simp] theorem counter_perform (r : RegisterFile) (i : Microinstruction) :
    (r.perform i).counter = (r.afterAddress i.address).counter := by
  simp [perform]

@[simp] theorem flags_afterMove (r : RegisterFile) (m : WordRegister × WordRegister) :
    (r.afterMove m).flags = r.flags := by
  obtain ⟨x, y⟩ := m
  cases x <;> rfl

@[simp] theorem flags_foldl_afterMove (r : RegisterFile)
    (ms : List (WordRegister × WordRegister)) : (ms.foldl afterMove r).flags = r.flags := by
  induction ms generalizing r with
  | nil => rfl
  | cons m ms ih => rw [List.foldl_cons, ih, flags_afterMove]

@[simp] theorem flags_afterAddress (r : RegisterFile) (a : AddressOp) :
    (r.afterAddress a).flags = r.flags := by
  cases a <;> rfl

@[simp] theorem issue?_fst (r : RegisterFile) (op : Option (AluOp Operand)) :
    (r.issue? op).1 = r.flags := by
  cases op <;> rfl

theorem controlState_perform (r : RegisterFile) (i : Microinstruction) :
    (r.perform i).controlState = i.branch.target r.flags (r.afterAddress i.address).counter := by
  simp [perform]

end RegisterFile

end DivisionMicrocode
