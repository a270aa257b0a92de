import Mathlib.Data.Nat.Init
import Mathlib.Tactic.Ring
/-!
# Binary long division

Division of natural numbers bit by bit, from the top. Before the bit of weight `2 ^ c` is taken in,
the partial remainder is what the dividend without its `c + 1` lowest bits leaves of the divisor;
taking the bit in doubles the partial remainder, adds the bit, and subtracts the divisor exactly
where the quotient has a bit of that weight (`partialRemainder_step`).

A quotient of one word is found in sixteen rounds. The bits of the dividend still to come and the
bits of the quotient found so far then share one word (`shiftRegister`), which moves by one place a
round (`shiftRegister_step`).
-/

namespace DivisionMicrocode.LongDivision

/-- What the dividend without its `c` lowest bits leaves of the divisor. -/
def partialRemainder (n d c : Nat) : Nat := n / 2 ^ c % d

/-- The bit of weight `2 ^ c` of the quotient. -/
def quotientBit (n d c : Nat) : Bool := (n / d).testBit c

/-- The `c` lowest bits of the dividend, at the top of a word. -/
def pending (n c : Nat) : Nat := n % 2 ^ c * 2 ^ (16 - c)

/-- The word that holds the `c` lowest bits of the dividend at its top and the bits of the quotient
above weight `2 ^ c` at its bottom. -/
def shiftRegister (n d c : Nat) : Nat := pending n c + n / d / 2 ^ (c + 1)

/-- The partial remainder above the pending bits: the long word that is left to divide when no
place is kept for the quotient. -/
def remainderWord (n d c : Nat) : Nat := partialRemainder n d c * 0x10000 + pending n c

variable {n d c : Nat}

/-! ## Partial remainders -/

@[simp] theorem partialRemainder_zero (n d : Nat) : partialRemainder n d 0 = n % d := by
  simp [partialRemainder]

theorem partialRemainder_lt (hd : 0 < d) : partialRemainder n d c < d := by
  exact Nat.mod_lt _ hd

theorem toNat_quotientBit (n d c : Nat) : (quotientBit n d c).toNat = n / d / 2 ^ c % 2 := by
  exact Nat.toNat_testBit (n / d) c

theorem div_pow_succ (m c : Nat) : m / 2 ^ (c + 1) = m / 2 ^ c / 2 := by
  rw [Nat.pow_succ, Nat.div_div_eq_div_mul]

/-- Taking in one bit of the dividend yields one bit of the quotient. -/
theorem partialRemainder_step (n d c : Nat) :
    2 * partialRemainder n d (c + 1) + n / 2 ^ c % 2 =
      d * (quotientBit n d c).toNat + partialRemainder n d c := by
  unfold partialRemainder
  rw [toNat_quotientBit, div_pow_succ, Nat.div_right_comm n d]
  set m := n / 2 ^ c
  have hhalf : m / d / 2 = m / 2 / d := Nat.div_right_comm m d 2
  have hmod := Nat.div_add_mod m d
  have hmodHalf := Nat.div_add_mod (m / 2) d
  have hbits : d * (m / d) = 2 * (d * (m / 2 / d)) + d * (m / d % 2) := by
    rw [← hhalf]
    have hsplit := Nat.div_add_mod (m / d) 2
    calc d * (m / d) = d * (2 * (m / d / 2) + m / d % 2) := by rw [hsplit]
      _ = 2 * (d * (m / d / 2)) + d * (m / d % 2) := by ring
  omega

/-- The quotient has a bit where the divisor fits. -/
theorem quotientBit_eq_decide (hd : 0 < d) :
    quotientBit n d c = decide (d ≤ 2 * partialRemainder n d (c + 1) + n / 2 ^ c % 2) := by
  have hstep := partialRemainder_step n d c
  have hlt : partialRemainder n d c < d := partialRemainder_lt hd
  cases hbit : quotientBit n d c
  · rw [hbit] at hstep
    simp only [Bool.toNat_false, Nat.mul_zero] at hstep
    exact (decide_eq_false (by omega)).symm
  · rw [hbit] at hstep
    simp only [Bool.toNat_true, Nat.mul_one] at hstep
    exact (decide_eq_true (by omega)).symm

/-- The quotient fits into a word exactly if the upper word of the dividend is a partial remainder
already. -/
theorem quotient_lt_iff (hd : 0 < d) : n / d < 0x10000 ↔ n / 0x10000 < d := by
  rw [Nat.div_lt_iff_lt_mul hd, Nat.div_lt_iff_lt_mul (by decide), Nat.mul_comm]

theorem partialRemainder_sixteen (hd : 0 < d) (hq : n / d < 0x10000) :
    partialRemainder n d 16 = n / 0x10000 := by
  exact Nat.mod_eq_of_lt ((quotient_lt_iff hd).1 hq)

theorem quotientBit_sixteen (hq : n / d < 0x10000) : quotientBit n d 16 = false := by
  exact Nat.testBit_lt_two_pow hq

/-! ## The word of pending bits and quotient bits -/

@[simp] theorem pending_zero (n : Nat) : pending n 0 = 0 := by
  simp [pending, Nat.mod_one]

theorem pending_sixteen (n : Nat) : pending n 16 = n % 0x10000 := by
  simp [pending]

theorem pending_add_le (hc : c ≤ 16) : pending n c + 2 ^ (16 - c) ≤ 0x10000 := by
  have hlt : n % 2 ^ c < 2 ^ c := Nat.mod_lt _ (Nat.two_pow_pos c)
  calc pending n c + 2 ^ (16 - c) = (n % 2 ^ c + 1) * 2 ^ (16 - c) := by
        rw [pending, Nat.add_mul, Nat.one_mul]
    _ ≤ 2 ^ c * 2 ^ (16 - c) := Nat.mul_le_mul_right _ hlt
    _ = 0x10000 := by rw [← Nat.pow_add, show c + (16 - c) = 16 by omega]

theorem pending_lt (hc : c ≤ 16) : pending n c < 0x10000 := by
  have hle := pending_add_le (n := n) hc
  have hpos := Nat.two_pow_pos (16 - c)
  omega

/-- The pending bits leave the word from the top. -/
theorem pending_step (hc : c < 16) :
    2 * pending n (c + 1) = n / 2 ^ c % 2 * 0x10000 + pending n c := by
  have hpow : 2 ^ (16 - c) = 2 * 2 ^ (16 - (c + 1)) := by
    rw [show 16 - c = 16 - (c + 1) + 1 by omega, Nat.pow_succ, Nat.mul_comm]
  have htop : 2 ^ c * 2 ^ (16 - c) = 0x10000 := by
    rw [← Nat.pow_add, show c + (16 - c) = 16 by omega]
  have hsplit : n % 2 ^ (c + 1) = n % 2 ^ c + 2 ^ c * (n / 2 ^ c % 2) := by
    rw [Nat.pow_succ, Nat.mod_mul]
  calc 2 * pending n (c + 1) = n % 2 ^ (c + 1) * 2 ^ (16 - c) := by
        rw [pending, hpow]; ring
    _ = n / 2 ^ c % 2 * (2 ^ c * 2 ^ (16 - c)) + n % 2 ^ c * 2 ^ (16 - c) := by
        rw [hsplit]; ring
    _ = n / 2 ^ c % 2 * 0x10000 + pending n c := by rw [htop, pending]

theorem shiftRegister_sixteen (hq : n / d < 0x10000) : shiftRegister n d 16 = n % 0x10000 := by
  rw [shiftRegister, pending_sixteen, Nat.div_eq_of_lt (by omega), Nat.add_zero]

@[simp] theorem shiftRegister_zero (n d : Nat) : shiftRegister n d 0 = n / d / 2 := by
  simp [shiftRegister]

theorem shiftRegister_lt (hc : c ≤ 16) (hq : n / d < 0x10000) :
    shiftRegister n d c < 0x10000 := by
  have hle := pending_add_le (n := n) hc
  have hpow : 2 ^ (c + 1) * 2 ^ (16 - c) = 0x20000 := by
    rw [← Nat.pow_add, show c + 1 + (16 - c) = 17 by omega]
  have hfound : n / d / 2 ^ (c + 1) < 2 ^ (16 - c) := by
    apply Nat.div_lt_of_lt_mul
    omega
  unfold shiftRegister
  omega

/-- The word of pending bits and quotient bits as a sum that may wrap around. -/
theorem shiftRegister_eq_mod (hc : c ≤ 16) (hq : n / d < 0x10000) :
    shiftRegister n d c = (n % 0x10000 * 2 ^ (16 - c) + (n / d) >>> (c + 1)) % 0x10000 := by
  have hlt : shiftRegister n d c < 0x10000 := shiftRegister_lt hc hq
  have hpow : 2 ^ c * 2 ^ (16 - c) = 0x10000 := by
    rw [← Nat.pow_add, show c + (16 - c) = 16 by omega]
  have hsplit : n % 0x10000 = n % 2 ^ c + 2 ^ c * (n / 2 ^ c % 2 ^ (16 - c)) := by
    rw [← hpow, Nat.mod_mul]
  -- the bits of the dividend that have been taken in are those that the shift takes out of the word
  have hsum : n % 0x10000 * 2 ^ (16 - c) + (n / d) >>> (c + 1) =
      shiftRegister n d c + 0x10000 * (n / 2 ^ c % 2 ^ (16 - c)) := by
    rw [hsplit, Nat.shiftRight_eq_div_pow, shiftRegister, pending, ← hpow]
    ring
  rw [hsum, Nat.add_mul_mod_self_left, Nat.mod_eq_of_lt hlt]

/-- A round shifts one bit of the dividend out and one bit of the quotient in. -/
theorem shiftRegister_step (hc : c < 16) :
    2 * shiftRegister n d (c + 1) + (quotientBit n d (c + 1)).toNat =
      n / 2 ^ c % 2 * 0x10000 + shiftRegister n d c := by
  have hpending := pending_step (n := n) hc
  have hfound := Nat.div_add_mod (n / d / 2 ^ (c + 1)) 2
  rw [← div_pow_succ] at hfound
  rw [toNat_quotientBit]
  unfold shiftRegister
  omega

/-! ## The long word that is left to divide -/

theorem remainderWord_sixteen (hd : 0 < d) (hq : n / d < 0x10000) : remainderWord n d 16 = n := by
  rw [remainderWord, partialRemainder_sixteen hd hq, pending_sixteen]
  omega

theorem remainderWord_lt (hd : 0 < d) (hc : c ≤ 16) : remainderWord n d c < d * 0x10000 := by
  have hlt : partialRemainder n d c < d := partialRemainder_lt hd
  have hpending : pending n c < 0x10000 := pending_lt hc
  unfold remainderWord
  omega

/-- A round doubles the word and takes the divisor away where it fits. -/
theorem remainderWord_step (hc : c < 16) :
    2 * remainderWord n d (c + 1) =
      d * (quotientBit n d c).toNat * 0x10000 + remainderWord n d c := by
  have hstep := partialRemainder_step n d c
  have hpending := pending_step (n := n) hc
  unfold remainderWord
  omega

end DivisionMicrocode.LongDivision
