import DivisionMicrocode.Proofs.Path
/-!
# The loop counter

The address unit counts the rounds down from sixteen. Where a division stands in its round bounds
the counter on both sides, so no round begins at zero, from where the counter would wrap around.
-/

namespace DivisionMicrocode

open ControlStore RegisterFile

/-! ## The counter at each microword -/

/-- What the counter may be at a microword of the unsigned division. Outside the loop it may be
anything, since it holds an address there. -/
def UnsignedWord.AllowsCount (count : Nat) : UnsignedWord → Prop
  | dvum5 | dvum6 => 1 ≤ count ∧ count ≤ 16
  | dvum7 | dvum8 => count ≤ 15
  | dvumb | dvume => 1 ≤ count ∧ count ≤ 15
  | dvur1 | dvum2 | dvum3 | dvum9 | dvumc | dvumd | dvumf | dvum0 => True

/-- What the counter may be at a microword of the signed division. -/
def SignedWord.AllowsCount (count : Nat) : SignedWord → Prop
  | dvs06 | dvs07 | dvs10 | dvs11 | dvs08 => count = 16
  | dvs09 | dvs0a => 1 ≤ count ∧ count ≤ 16
  | dvs0c => count ≤ 15
  | dvs0d | dvs0f => 1 ≤ count ∧ count ≤ 15
  | dvs01 | dvs03 | dvs04 | dvs05 | dvs0e | dvs12 | dvs13 | dvs14 | dvs15 | dvs16 | dvs17 | dvs1a
  | dvs1b | dvs1c | dvs1d | dvs1e | dvs1f | dvs20 => True

def Microword.AllowsCount (count : Nat) : Microword → Prop
  | unsigned w => w.AllowsCount count
  | signed w => w.AllowsCount count
  | exit _ => True

/-- The counter is one that the microword to be executed next allows. -/
def RegisterFile.CountAllowed (r : RegisterFile) : Prop := r.controlState.AllowsCount r.counter.toNat

variable {r s t : RegisterFile} {visited : List RegisterFile}

/-! ## What one microword does to it -/

theorem countAllowed_perform_unsigned (r : RegisterFile) (w : UnsignedWord)
    (h : w.AllowsCount r.counter.toNat) : (r.perform (unsigned w)).CountAllowed := by
  have hzero := Long.toNat_pos_iff r.counter
  have hdown := @Long.toNat_sub_one r.counter
  have hstart : loopCount.toNat = 16 := rfl
  rw [CountAllowed, controlState_perform, counter_perform]
  cases w <;> simp only [unsigned, distribute, subtractRound, Branch.target, afterAddress] <;>
    (try split) <;> simp only [Microword.AllowsCount, UnsignedWord.AllowsCount] at h ⊢ <;>
    grind [Condition.holds]

theorem countAllowed_perform_signed (r : RegisterFile) (w : SignedWord)
    (h : w.AllowsCount r.counter.toNat) : (r.perform (signed w)).CountAllowed := by
  have hzero := Long.toNat_pos_iff r.counter
  have hdown := @Long.toNat_sub_one r.counter
  have hstart : loopCount.toNat = 16 := rfl
  rw [CountAllowed, controlState_perform, counter_perform]
  cases w <;> simp only [signed, distribute, subtractRound, Branch.target, afterAddress] <;>
    (repeat' split) <;> simp only [Microword.AllowsCount, SignedWord.AllowsCount] at h ⊢ <;>
    grind [Condition.holds]

theorem countAllowed_perform_exit (r : RegisterFile) {w : ExitWord} {i : Microinstruction}
    (h : exit w = some i) : (r.perform i).CountAllowed := by
  rw [CountAllowed, controlState_perform]
  cases w <;> cases h <;> exact trivial

theorem countAllowed_pass {i : Microinstruction} (hi : fetch r.controlState = some i)
    (h : r.CountAllowed) : (r.pass i).CountAllowed := by
  unfold CountAllowed at h
  cases hw : r.controlState with
  | unsigned w =>
      obtain rfl : unsigned w = i := by simpa [fetch, hw] using hi
      rw [hw] at h
      exact countAllowed_perform_unsigned _ w h
  | signed w =>
      obtain rfl : signed w = i := by simpa [fetch, hw] using hi
      rw [hw] at h
      exact countAllowed_perform_signed _ w h
  | exit w => exact countAllowed_perform_exit _ (by simpa [fetch, hw] using hi)

/-! ## Along a path -/

theorem Path.countAllowed_of_mem (p : Path r visited t) (h : r.CountAllowed) (hs : s ∈ visited) :
    s.CountAllowed := by
  apply p.forall_mem _ h s (List.mem_append_left [t] hs)
  intro q i hi hq
  exact countAllowed_pass hi hq

/-- The microwords that start a round and count it. -/
def roundStarts : List Microword :=
  [.unsigned .dvum5, .unsigned .dvum6, .signed .dvs09, .signed .dvs0a]

theorem count_of_roundStarts (h : s.CountAllowed) (hs : s.controlState ∈ roundStarts) :
    1 ≤ s.counter.toNat ∧ s.counter.toNat ≤ 16 := by
  unfold CountAllowed at h
  simp only [roundStarts, List.mem_cons, List.not_mem_nil, or_false] at hs
  rcases hs with hw | hw | hw | hw <;> rw [hw] at h <;> exact h

end DivisionMicrocode
