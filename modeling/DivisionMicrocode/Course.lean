import DivisionMicrocode.Outcome
import DivisionMicrocode.Remaining
/-!
# The course of a division

A division executes microwords, each of which takes two clocks, until a terminal one comes up. The
clock is 64 bits wide and does not wrap: a microword whose clocks cannot be counted any more is
not executed, and the division stops there. Each microword brings the end nearer, so the course is
defined for all registers, whatever microword they start at.
-/

namespace DivisionMicrocode

open ControlStore RegisterFile

/-! ## The run -/

def clocksPerMicroword : Clocks := 2

/-- The registers with the clocks of one microword counted, if the clock can count them. -/
def RegisterFile.tick? (r : RegisterFile) : Option RegisterFile :=
  if r.cycles.uaddOverflow clocksPerMicroword then
    none
  else
    some { r with cycles := r.cycles + clocksPerMicroword }

theorem RegisterFile.tick?_eq_some_iff {r s : RegisterFile} :
    r.tick? = some s ↔
      r.cycles.uaddOverflow clocksPerMicroword = false ∧
        s = { r with cycles := r.cycles + clocksPerMicroword } := by
  unfold tick?
  split
  next h => exact ⟨nofun, fun e => absurd (h.symm.trans e.1) nofun⟩
  next h =>
    exact ⟨fun e => ⟨Bool.eq_false_iff.2 h, (Option.some.inj e).symm⟩,
      fun e => congrArg some e.2.symm⟩

/-- The registers after the microword that they name, with its clocks counted. There are none if
the microword is terminal, or if the clock cannot count on. -/
def RegisterFile.next? (r : RegisterFile) : Option RegisterFile := do
  let i ← fetch r.controlState
  let ticked ← r.tick?
  return ticked.perform i

theorem RegisterFile.next?_eq_some_iff {r s : RegisterFile} :
    r.next? = some s ↔
      ∃ i, fetch r.controlState = some i ∧
        r.cycles.uaddOverflow clocksPerMicroword = false ∧
          s = { r with cycles := r.cycles + clocksPerMicroword }.perform i := by
  simp only [next?, bind, Option.bind_eq_some_iff, pure, Option.some.injEq, tick?_eq_some_iff]
  constructor
  · rintro ⟨i, hi, t, ⟨hlt, rfl⟩, rfl⟩
    exact ⟨i, hi, hlt, rfl⟩
  · rintro ⟨i, hi, hlt, rfl⟩
    exact ⟨i, hi, _, ⟨hlt, rfl⟩, rfl⟩

theorem RegisterFile.remaining_lt_of_next? {r s : RegisterFile} (h : r.next? = some s) :
    s.remaining < r.remaining := by
  obtain ⟨i, hi, -, rfl⟩ := next?_eq_some_iff.1 h
  exact remaining_perform_lt (r := { r with cycles := r.cycles + clocksPerMicroword }) hi

/-- How a course of microwords ends. -/
inductive Ending where
  /-- A terminal microword has come up. -/
  | completed
  /-- The clock cannot count the clocks of the next microword. -/
  | clockOverflow
deriving DecidableEq

structure Course where
  /-- The registers before each microword that has come up, the terminal one apart. -/
  visited : List RegisterFile
  final : RegisterFile
  ending : Ending
deriving DecidableEq

/-- The course with one more microword in front. -/
def Course.cons (r : RegisterFile) (c : Course) : Course := { c with visited := r :: c.visited }

/-- The course of registers that no microword follows. A microword that has come up and cannot be
counted has been visited all the same. -/
def RegisterFile.halt (r : RegisterFile) : Course :=
  if r.controlState.isTerminal then
    { visited := [], final := r, ending := .completed }
  else
    { visited := [r], final := r, ending := .clockOverflow }

/-- Executes microwords from the one that the registers name until a terminal one comes up or the
clock runs out. -/
def RegisterFile.run (r : RegisterFile) : Course :=
  match _h : r.next? with
  | none => r.halt
  | some s => s.run.cons r
termination_by r.remaining
decreasing_by exact remaining_lt_of_next? _h

theorem RegisterFile.run_of_next?_eq_none {r : RegisterFile} (h : r.next? = none) :
    r.run = r.halt := by
  rw [run]
  split
  · rfl
  · simp_all

theorem RegisterFile.run_of_next?_eq_some {r s : RegisterFile} (h : r.next? = some s) :
    r.run = s.run.cons r := by
  rw [run]
  split
  · simp_all
  · simp_all

/-! ## Divisions -/

/-- Whether the common end of overflows comes up. -/
def RegisterFile.overflows (r : RegisterFile) : Bool := r.controlState == .exit .dvuma

/-- The outcome of a division that has come to its end: a division by zero ends at the exception,
and an overflow has passed through the common end of overflows, as `overflowed` says. -/
def RegisterFile.outcome (r : RegisterFile) (overflowed : Bool) : Outcome :=
  if r.controlState = .exit .trap0 then
    .divisionByZero
  else if overflowed then
    .overflow
  else
    .normal

def Course.outcome (c : Course) : Outcome := c.final.outcome (c.visited.any (·.overflows))

/-- The reason why a division has no outcome. -/
inductive Fault where
  /-- The clock cannot count the clocks of the next microword. -/
  | clockOverflow
deriving DecidableEq

/-- What is reported of a fault. -/
def Fault.message : Fault → String
  | clockOverflow => "attempt to add with overflow"

/-- The outcome of a course, or the reason why it has none. -/
def Course.result (c : Course) : Except Fault Outcome :=
  match c.ending with
  | .completed => .ok c.outcome
  | .clockOverflow => .error .clockOverflow

/-- The registers at the start of an instruction. -/
def RegisterFile.enter (r : RegisterFile) (i : Instruction) : RegisterFile :=
  { r with controlState := i.entry }

/-- The course of a division of the dividend register by the divisor. -/
def RegisterFile.divide (r : RegisterFile) (i : Instruction) : Course := (r.enter i).run

end DivisionMicrocode
