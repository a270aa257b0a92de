import DivisionMicrocode.Alu
import DivisionMicrocode.Arithmetic
import Mathlib.Tactic.Common
/-!
# Word arithmetic

What the operations of the arithmetic unit do to words that are read as natural numbers, and what
the flags of a subtraction say of its operands.
-/

namespace DivisionMicrocode

theorem msb_eq_decide_word (x : Word) : x.msb = decide (0x8000 ≤ x.toNat) :=
  BitVec.msb_eq_decide x

theorem toNat_sub_word (x y : Word) : (x - y).toNat = (0x10000 - y.toNat + x.toNat) % 0x10000 :=
  BitVec.toNat_sub x y

theorem toNat_pos_iff (x : Word) : 0 < x.toNat ↔ x ≠ 0#16 := by
  rw [Nat.pos_iff_ne_zero, ne_eq, ne_eq, ← BitVec.toNat_inj]
  rfl

/-! ## The flags of a subtraction -/

namespace Flags

/-- The borrow out of the most significant bit tells the order of the operands. -/
theorem carry_subtraction (dst src : Word) :
    (subtraction dst src (dst - src)).carry = decide (dst.toNat < src.toNat) := by
  have hdst := dst.isLt
  have hsrc := src.isLt
  have hsub := toNat_sub_word dst src
  generalize dst - src = result at hsub ⊢
  simp only [subtraction, msb_eq_decide_word]
  -- the three signs settle the borrow; whether they can occur together is for `hsub` to say
  by_cases hd : 0x8000 ≤ dst.toNat <;> by_cases hs : 0x8000 ≤ src.toNat <;>
    by_cases hr : 0x8000 ≤ result.toNat <;> simp [hd, hs, hr] <;> omega

theorem extend_subtraction (dst src : Word) :
    (subtraction dst src (dst - src)).extend = decide (dst.toNat < src.toNat) :=
  carry_subtraction dst src

@[simp] theorem negative_subtraction (dst src result : Word) :
    (subtraction dst src result).negative = result.msb := rfl

@[simp] theorem zero_subtraction (dst src result : Word) :
    (subtraction dst src result).zero = (result == 0#16) := rfl

theorem subtraction_zero (x : Word) :
    subtraction x 0#16 x = { zero := x == 0#16, negative := x.msb } := by
  simp [subtraction]

theorem zero_subtraction_eq_decide (dst src : Word) :
    (subtraction dst src (dst - src)).zero = decide (dst = src) := by
  rw [zero_subtraction, beq_eq_decide, decide_eq_decide, BitVec.sub_eq_iff_eq_add, BitVec.zero_add]

theorem overflow_subtraction (dst src : Word) :
    (subtraction dst src (dst - src)).overflow = dst.ssubOverflow src := by
  rw [BitVec.ssubOverflow_eq]
  simp only [subtraction]
  cases dst.msb <;> cases src.msb <;> cases (dst - src).msb <;> rfl

/-- The sign of the difference, put right by the overflow, tells the order of the operands as signed
numbers. -/
theorem negative_xor_overflow_subtraction (dst src : Word) :
    let f := subtraction dst src (dst - src)
    (f.negative ^^ f.overflow) = dst.slt src := by
  intro f
  -- the borrow adds the operands' signs to it, and signs that differ turn the unsigned order round
  have hborrow : f.carry = (dst.msb ^^ src.msb ^^ f.negative ^^ f.overflow) := rfl
  have hult : f.carry = dst.ult src := carry_subtraction dst src
  rw [BitVec.slt_eq_ult, ← hult, hborrow]
  cases dst.msb <;> cases src.msb <;> cases f.negative <;> cases f.overflow <;> rfl

/-- Negation borrows unless its operand is zero. -/
theorem extend_negation (x : Word) : (subtraction 0#16 x (-x)).extend = (x != 0#16) := by
  have hzero : (0#16).toNat < x.toNat ↔ x ≠ 0#16 := toNat_pos_iff x
  rw [← BitVec.zero_sub, extend_subtraction]
  simp only [hzero, ne_eq, decide_not, bne, beq_eq_decide]

end Flags

/-! ## Words as natural numbers -/

@[simp] theorem and_ones (x : Word) : x &&& 65535#16 = x := by
  exact BitVec.and_allOnes

theorem toNat_msb (x : Word) : x.msb.toNat = x.toNat / 0x8000 := by
  have hx := x.isLt
  rw [msb_eq_decide_word]
  by_cases h : 0x8000 ≤ x.toNat
  · rw [decide_eq_true h, Bool.toNat_true]
    omega
  · rw [decide_eq_false h, Bool.toNat_false]
    omega

theorem toNat_shiftConcat (x : Word) (b : Bool) :
    (x.shiftConcat b).toNat = (2 * x.toNat + b.toNat) % 0x10000 := by
  rw [BitVec.toNat_shiftConcat, Nat.shiftLeft_eq, Nat.pow_one, Nat.mul_comm]

/-! ## Long words as two words -/

namespace Long

theorem msb_ofWords (hi lo : Word) : (ofWords hi lo).msb = hi.msb := by
  rw [ofWords, BitVec.msb_append]
  rfl

theorem low_sub (a b : Long) : (a - b).low = a.low - b.low := by
  apply BitVec.eq_of_toNat_eq
  have hb := b.isLt
  simp only [toNat_low, BitVec.toNat_sub]
  omega

/-- The upper words take the borrow of the lower words. -/
theorem high_sub (a b : Long) :
    (a - b).high =
      a.high - b.high - (BitVec.ofBool (decide (a.low.toNat < b.low.toNat))).setWidth 16 := by
  apply BitVec.eq_of_toNat_eq
  have ha := a.isLt
  have hb := b.isLt
  by_cases h : a.low.toNat < b.low.toNat
  · have hone : (BitVec.setWidth 16 (BitVec.ofBool true)).toNat = 1 := rfl
    rw [decide_eq_true h, BitVec.toNat_sub, BitVec.toNat_sub, hone]
    simp only [toNat_low, toNat_high, BitVec.toNat_sub] at h ⊢
    omega
  · have hzero : (BitVec.setWidth 16 (BitVec.ofBool false)).toNat = 0 := rfl
    rw [decide_eq_false h, BitVec.toNat_sub, BitVec.toNat_sub, hzero]
    simp only [toNat_low, toNat_high, BitVec.toNat_sub] at h ⊢
    omega

theorem low_neg (a : Long) : (-a).low = -a.low := by
  rw [← BitVec.zero_sub, low_sub, ← BitVec.zero_sub a.low]
  rfl

theorem high_neg (a : Long) :
    (-a).high = -a.high - (BitVec.ofBool (a.low != 0#16)).setWidth 16 := by
  have hborrow : decide ((low 0#32).toNat < a.low.toNat) = (a.low != 0#16) := by
    rw [← Flags.extend_subtraction, ← Flags.extend_negation, ← BitVec.zero_sub]
    rfl
  rw [← BitVec.zero_sub, high_sub, hborrow, ← BitVec.zero_sub a.high]
  rfl

end Long

/-! ## The dividend register -/

namespace RegisterFile

theorem high_dividend (r : RegisterFile) : r.dividend.high = r.dividendHi :=
  Long.high_ofWords r.dividendHi r.dividendLo

theorem low_dividend (r : RegisterFile) : r.dividend.low = r.dividendLo :=
  Long.low_ofWords r.dividendHi r.dividendLo

theorem msb_dividend (r : RegisterFile) : r.dividend.msb = r.dividendHi.msb :=
  Long.msb_ofWords r.dividendHi r.dividendLo

theorem toNat_dividendHi (r : RegisterFile) :
    r.dividendHi.toNat = r.dividend.toNat / 0x10000 := by
  rw [← Long.toNat_high, high_dividend]

theorem toNat_dividendLo (r : RegisterFile) :
    r.dividendLo.toNat = r.dividend.toNat % 0x10000 := by
  rw [← Long.toNat_low, low_dividend]

end RegisterFile

/-! ## Absolute values -/

theorem magnitude_eq_toNat_abs {w : Nat} (x : BitVec w) : magnitude x = x.abs.toNat := rfl

theorem magnitude_eq_natAbs {w : Nat} (x : BitVec w) : magnitude x = x.toInt.natAbs := by
  have hx := x.isLt
  rw [magnitude_eq_toNat_abs, BitVec.toNat_abs, BitVec.toInt_eq_msb_cond]
  split
  · omega
  · omega

theorem ofNat_magnitude {w : Nat} (x : BitVec w) : BitVec.ofNat w (magnitude x) = x.abs := by
  rw [magnitude_eq_toNat_abs, BitVec.ofNat_toNat, BitVec.setWidth_eq]

theorem magnitude_pos_iff (x : Word) : 0 < magnitude x ↔ x ≠ 0#16 := by
  rw [magnitude_eq_toNat_abs, toNat_pos_iff, BitVec.abs_eq]
  split <;> simp

theorem magnitude_le (x : Word) : magnitude x ≤ 0x8000 := by
  have hx := x.isLt
  rw [magnitude_eq_toNat_abs, BitVec.toNat_abs, msb_eq_decide_word]
  by_cases h : 0x8000 ≤ x.toNat
  · rw [decide_eq_true h, if_pos rfl]
    omega
  · rw [decide_eq_false h]
    simp only [Bool.false_eq_true, if_false]
    omega

end DivisionMicrocode
