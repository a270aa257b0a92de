import DivisionMicrocode.ControlStore
/-!
# Every microword brings the end nearer

`remaining` bounds the microwords that are still to be executed, whatever the registers hold, and
`remaining_perform_lt` says that executing one lowers the bound. Within the loop it is the counter
that falls; outside the loop the labels follow one another without a cycle.
-/

namespace DivisionMicrocode

/-- The rounds that the address unit can still count down; from zero it wraps around. -/
def rounds (counter : Long) : Nat := (counter - 1).toNat + 1

theorem rounds_of_ne_zero {counter : Long} (h : counter ≠ 0) : rounds counter = counter.toNat :=
  Long.toNat_sub_one ((Long.toNat_pos_iff counter).2 h)

/-- A bound on the microwords still to be executed from a microword of the unsigned division. -/
def UnsignedWord.remaining (counter : Long) : UnsignedWord → Nat
  | dvur1 => 68
  | dvum2 => 67
  | dvum3 => 66
  | dvum5 | dvum6 => 4 * rounds counter + 1
  | dvum7 | dvum8 => 4 * counter.toNat + 4
  | dvumb => 4 * rounds counter + 3
  | dvume => 4 * rounds counter + 2
  | dvum9 | dvumc => 3
  | dvumd | dvumf => 2
  | dvum0 => 1

/-- A bound on the microwords still to be executed from a microword of the signed division. -/
def SignedWord.remaining (counter : Long) : SignedWord → Nat
  | dvs01 => 78
  | dvs03 => 77
  | dvs04 | dvs05 => 76
  | dvs06 => 4 * rounds counter + 11
  | dvs10 => 4 * rounds counter + 10
  | dvs07 | dvs11 => 4 * rounds counter + 9
  | dvs08 => 4 * rounds counter + 8
  | dvs09 | dvs0a => 4 * rounds counter + 7
  | dvs0c => 4 * counter.toNat + 10
  | dvs0d => 4 * rounds counter + 9
  | dvs0f => 4 * rounds counter + 8
  | dvs0e => 9
  | dvs12 | dvs13 => 8
  | dvs14 => 7
  | dvs15 => 6
  | dvs16 => 5
  | dvs1a | dvs1d => 4
  | dvs1b | dvs1e | dvs1f => 3
  | dvs17 | dvs1c | dvs20 => 2

/-- A bound on the microwords still to be executed from a microword of the instruction
sequencer. -/
def ExitWord.remaining : ExitWord → Nat
  | dvum4 | dvumz => 2
  | dvuma | leaa2 => 1
  | trap0 | a1 => 0

/-- A bound on the microwords still to be executed from a microword. -/
def Microword.remaining (counter : Long) : Microword → Nat
  | unsigned w => w.remaining counter
  | signed w => w.remaining counter
  | exit w => w.remaining

/-- A bound on the microwords still to be executed. -/
def RegisterFile.remaining (r : RegisterFile) : Nat := r.controlState.remaining r.counter

open ControlStore RegisterFile

theorem remaining_perform_unsigned_lt (r : RegisterFile) (w : UnsignedWord) :
    (r.perform (unsigned w)).remaining < w.remaining r.counter := by
  have hcount := @rounds_of_ne_zero r.counter
  rw [RegisterFile.remaining, controlState_perform, counter_perform]
  cases w <;> simp only [unsigned, distribute, subtractRound, Branch.target, afterAddress] <;>
    (try split) <;> simp only [Microword.remaining, UnsignedWord.remaining, ExitWord.remaining] <;>
    grind [rounds, loopCount, Condition.holds]

theorem remaining_perform_signed_lt (r : RegisterFile) (w : SignedWord) :
    (r.perform (signed w)).remaining < w.remaining r.counter := by
  have hcount := @rounds_of_ne_zero r.counter
  have hstart : rounds loopCount = 16 := rfl
  rw [RegisterFile.remaining, controlState_perform, counter_perform]
  cases w <;> simp only [signed, distribute, subtractRound, Branch.target, afterAddress] <;>
    (repeat' split) <;> simp only [Microword.remaining, SignedWord.remaining, ExitWord.remaining] <;>
    grind [rounds, loopCount, Condition.holds]

theorem remaining_perform_exit_lt (r : RegisterFile) {w : ExitWord} {i : Microinstruction}
    (h : exit w = some i) : (r.perform i).remaining < w.remaining := by
  rw [RegisterFile.remaining, controlState_perform]
  cases w <;> cases h <;> simp [Branch.target, Microword.remaining, ExitWord.remaining]

theorem remaining_perform_lt {r : RegisterFile} {i : Microinstruction}
    (h : fetch r.controlState = some i) : (r.perform i).remaining < r.remaining := by
  rw [RegisterFile.remaining.eq_1 r]
  cases hw : r.controlState with
  | unsigned w =>
    obtain rfl : unsigned w = i := by simpa [fetch, hw] using h
    exact remaining_perform_unsigned_lt r w
  | signed w =>
    obtain rfl : signed w = i := by simpa [fetch, hw] using h
    exact remaining_perform_signed_lt r w
  | exit w => exact remaining_perform_exit_lt r (by simpa [fetch, hw] using h)

end DivisionMicrocode
