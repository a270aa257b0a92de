/-!
# Machine words

The machine keeps its data in 16-bit words, its addresses and its dividends in 32-bit long words,
and its clock in a 64-bit count. A long word and its two words determine each other.
-/

namespace DivisionMicrocode

/-- A data word. -/
abbrev Word := BitVec 16

/-- A long word: an address, or a dividend. -/
abbrev Long := BitVec 32

/-- A count of clocks. -/
abbrev Clocks := BitVec 64

namespace Long

/-- The upper word of a long word. -/
def high (a : Long) : Word := a.extractLsb' 16 16

/-- The lower word of a long word. -/
def low (a : Long) : Word := a.extractLsb' 0 16

/-- The long word with upper word `hi` and lower word `lo`. -/
def ofWords (hi lo : Word) : Long := hi ++ lo

theorem toNat_high (a : Long) : (high a).toNat = a.toNat / 0x10000 := by
  have ha := a.isLt
  rw [high, BitVec.extractLsb'_toNat, Nat.shiftRight_eq_div_pow]
  omega

theorem toNat_low (a : Long) : (low a).toNat = a.toNat % 0x10000 := by
  rw [low, BitVec.extractLsb'_toNat, Nat.shiftRight_zero]

theorem toNat_ofWords (hi lo : Word) :
    (ofWords hi lo).toNat = hi.toNat * 0x10000 + lo.toNat := by
  rw [ofWords, BitVec.toNat_append, ← Nat.shiftLeft_add_eq_or_of_lt lo.isLt, Nat.shiftLeft_eq]

@[simp] theorem high_ofWords (hi lo : Word) : high (ofWords hi lo) = hi := by
  apply BitVec.eq_of_toNat_eq
  have hlo := lo.isLt
  rw [toNat_high, toNat_ofWords]
  omega

@[simp] theorem low_ofWords (hi lo : Word) : low (ofWords hi lo) = lo := by
  apply BitVec.eq_of_toNat_eq
  have hlo := lo.isLt
  rw [toNat_low, toNat_ofWords]
  omega

@[simp] theorem ofWords_high_low (a : Long) : ofWords (high a) (low a) = a := by
  apply BitVec.eq_of_toNat_eq
  rw [toNat_ofWords, toNat_high, toNat_low]
  omega

theorem toNat_pos_iff (a : Long) : 0 < a.toNat ↔ a ≠ 0 := by
  rw [Nat.pos_iff_ne_zero, ne_eq, ne_eq, ← BitVec.toNat_inj]
  rfl

theorem toNat_sub_one {a : Long} (h : 0 < a.toNat) : (a - 1).toNat + 1 = a.toNat := by
  have hlt := a.isLt
  have hone : (1 : Long).toNat = 1 := rfl
  rw [BitVec.toNat_sub, hone]
  omega

end Long

end DivisionMicrocode
