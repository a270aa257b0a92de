import DivisionMicrocode.Proofs.SignedCourse
import DivisionMicrocode.Proofs.UnsignedCourse
import DivisionMicrocode.Timing
/-!
# The clocks of the divisions

The timing of a division counts clocks on one long word and an aligned divisor, without a register
or a flag. The word that it keeps is the partial remainder above the pending bits of the dividend
(`remainderWord`). So each of its rounds decides as the round of the microcode does, and its clocks
are two for each label.
-/

namespace DivisionMicrocode

open LongDivision

variable {n d c : Nat} {divisor a : Long}

theorem toNat_aligned (x : Word) : (aligned x).toNat = x.toNat * 0x10000 := by
  have hzero : (0 : Word).toNat = 0 := rfl
  rw [aligned, Long.toNat_ofWords, hzero, Nat.add_zero]

/-! ## A round -/

theorem toNat_doubled (a : Long) : (a <<< 1).toNat = 2 * a.toNat % 2 ^ 32 := by
  rw [BitVec.toNat_shiftLeft, Nat.shiftLeft_eq, Nat.pow_one, Nat.mul_comm]

/-- The top bit of the word is the bit that the shift of the microcode loses. -/
theorem msb_eq_losesBit (ha : a.toNat = remainderWord n d (c + 1)) (hc : c < 16) :
    a.msb = losesBit n d c := by
  have hpending : pending n (c + 1) < 0x10000 := pending_lt hc
  have htop : 2 ^ 31 ≤ a.toNat ↔ 0x8000 ≤ partialRemainder n d (c + 1) := by
    rw [ha, remainderWord]
    omega
  rw [BitVec.msb_eq_decide, losesBit]
  exact decide_eq_decide.2 htop

/-- Where no bit is lost, the comparison is the one that the borrow decides. -/
theorem le_doubled_iff (ha : a.toNat = remainderWord n d (c + 1))
    (hdivisor : divisor.toNat = d * 0x10000) (hc : c < 16) (hd : 0 < d) (hmsb : a.msb = false) :
    divisor ≤ a <<< 1 ↔ quotientBit n d c = true := by
  have hstep := remainderWord_step (n := n) (d := d) hc
  have hlt : remainderWord n d c < d * 0x10000 := remainderWord_lt hd (by omega)
  have hhalf : 2 * a.toNat < 2 ^ 32 := BitVec.msb_eq_false_iff_two_mul_lt.1 hmsb
  rw [← ha] at hstep
  rw [BitVec.le_def, toNat_doubled, hdivisor, Nat.mod_eq_of_lt hhalf, hstep]
  cases quotientBit n d c
  case false =>
    rw [Bool.toNat_false, Nat.mul_zero]
    simp only [Bool.false_eq_true, iff_false]
    omega
  case true =>
    rw [Bool.toNat_true, Nat.mul_one]
    simp only [iff_true]
    omega

/-- The difference is the next word, also where a bit is lost. -/
theorem toNat_doubled_sub (ha : a.toNat = remainderWord n d (c + 1))
    (hdivisor : divisor.toNat = d * 0x10000) (hc : c < 16) (hd : 0 < d)
    (hbit : quotientBit n d c = true) : (a <<< 1 - divisor).toNat = remainderWord n d c := by
  have hword := divisor.isLt
  have hstep := remainderWord_step (n := n) (d := d) hc
  have hlt : remainderWord n d c < d * 0x10000 := remainderWord_lt hd (by omega)
  rw [← ha, hbit, Bool.toNat_true, Nat.mul_one] at hstep
  rw [BitVec.toNat_sub, toNat_doubled]
  omega

theorem toNat_doubled_of_not (ha : a.toNat = remainderWord n d (c + 1))
    (hdivisor : divisor.toNat = d * 0x10000) (hc : c < 16) (hd : 0 < d)
    (hbit : quotientBit n d c = false) : (a <<< 1).toNat = remainderWord n d c := by
  have hword := divisor.isLt
  have hstep := remainderWord_step (n := n) (d := d) hc
  have hlt : remainderWord n d c < d * 0x10000 := remainderWord_lt hd (by omega)
  rw [← ha, hbit, Bool.toNat_false, Nat.mul_zero, Nat.zero_mul, Nat.zero_add] at hstep
  rw [toNat_doubled]
  omega

/-! ## The rounds -/

theorem unsignedRounds_eq {k : Nat} (ha : a.toNat = remainderWord n d (k + 1))
    (hdivisor : divisor.toNat = d * 0x10000) (hk : k < 16) (hd : 0 < d) :
    unsignedRounds divisor k a = 2 * (loopLabels (unsignedRoundLabels n d) k).length := by
  have hword := divisor.isLt
  induction k generalizing a with
  | zero => rfl
  | succ k ih =>
      rw [unsignedRounds, loopLabels, List.length_append, unsignedRoundLabels,
        ← msb_eq_losesBit ha hk]
      cases hmsb : a.msb
      case true =>
        -- both subtract without a comparison
        have hbit : quotientBit n d (k + 1) = true := by
          rw [msb_eq_losesBit ha hk] at hmsb
          exact quotientBit_of_losesBit hd (by omega) hmsb
        have hnext := toNat_doubled_sub ha hdivisor hk hd hbit
        simp only [if_true, ih hnext (by omega), List.length_cons, List.length_nil]
        omega
      case false =>
        simp only [Bool.false_eq_true, if_false, le_doubled_iff ha hdivisor hk hd hmsb]
        cases hbit : quotientBit n d (k + 1)
        case true =>
          have hnext := toNat_doubled_sub ha hdivisor hk hd hbit
          simp only [if_true, ih hnext (by omega), List.length_cons, List.length_nil]
          omega
        case false =>
          have hnext := toNat_doubled_of_not ha hdivisor hk hd hbit
          simp only [Bool.false_eq_true, if_false, ih hnext (by omega), List.length_cons,
            List.length_nil]
          omega

theorem signedRounds_eq {k : Nat} (ha : a.toNat = remainderWord n d (k + 1))
    (hdivisor : divisor.toNat = d * 0x10000) (hk : k < 16) (hd : 0 < d) (hhalf : d ≤ 0x8000) :
    signedRounds divisor k a = 2 * (loopLabels (signedRoundLabels n d) k).length := by
  induction k generalizing a with
  | zero => rfl
  | succ k ih =>
      -- the top bit is clear, so the doubled word compares as it is
      have hlt : remainderWord n d (k + 1 + 1) < d * 0x10000 := remainderWord_lt hd hk
      have hmsb : a.msb = false := BitVec.msb_eq_false_iff_two_mul_lt.2 (by omega)
      rw [signedRounds, loopLabels, List.length_append, signedRoundLabels]
      simp only [le_doubled_iff ha hdivisor hk hd hmsb]
      cases hbit : quotientBit n d (k + 1)
      case true =>
        have hnext := toNat_doubled_sub ha hdivisor hk hd hbit
        simp only [if_true, ih hnext (by omega), List.length_append, List.length_cons,
          List.length_nil]
        omega
      case false =>
        have hnext := toNat_doubled_of_not ha hdivisor hk hd hbit
        simp only [Bool.false_eq_true, if_false, ih hnext (by omega), List.length_append,
          List.length_cons, List.length_nil]
        omega

/-! ## The divisions -/

theorem unsignedClocks_eq (dividend : Long) (divisor : Word) :
    unsignedClocks dividend divisor =
      2 * (unsignedLabels dividend.toNat divisor.toNat).length := by
  have hzero : divisor = 0 ↔ divisor.toNat = 0 := by
    rw [← BitVec.toNat_inj]
    rfl
  unfold unsignedClocks unsignedLabels
  simp only [hzero]
  by_cases hd : divisor.toNat = 0
  · simp [hd]
  · have hpos := Nat.pos_of_ne_zero hd
    by_cases hq : 0x10000 ≤ dividend.toNat / divisor.toNat
    · simp [hd, hq]
    · have ha : dividend.toNat = remainderWord dividend.toNat divisor.toNat 16 :=
        (remainderWord_sixteen hpos (Nat.not_le.1 hq)).symm
      have hrounds := unsignedRounds_eq ha (toNat_aligned divisor) (by decide) hpos
      simp only [hd, hq, if_false, hrounds, unsignedFinishLabels, List.length_append,
        List.length_cons, List.length_nil]
      omega

theorem length_signedSetupLabels (dividend : Long) (divisor : Word) :
    2 * (signedSetupLabels divisor.msb dividend.msb).length = signedSetupClocks dividend := by
  unfold signedSetupLabels signedSetupClocks
  cases dividend.msb <;> rfl

/-- The write-back and the overflow take the same time. -/
theorem length_writeBackLabels (x : Bool) :
    (writeBackLabels x).length = (lateOverflowLabels x).length := by
  cases x <;> rfl

theorem length_signsLabels (dividend : Long) (divisor : Word) :
    2 * ((signsLabels divisor.msb dividend.msb).length +
      (lateOverflowLabels dividend.msb).length) = signedFixupClocks dividend divisor := by
  unfold signedFixupClocks
  cases divisor.msb <;> cases dividend.msb <;> rfl

theorem signedClocks_eq (dividend : Long) (divisor : Word) :
    signedClocks dividend divisor = 2 * (signedLabels dividend divisor).length := by
  have hsetup := length_signedSetupLabels dividend divisor
  have hsigns := length_signsLabels dividend divisor
  have hends := length_writeBackLabels dividend.msb
  unfold signedClocks signedLabels
  by_cases hd : divisor = 0
  · simp [hd]
  · have hpos := (magnitude_pos_iff divisor).2 hd
    have hhalf := magnitude_le divisor
    by_cases hq : 0x10000 ≤ magnitude dividend / magnitude divisor
    · simp only [hd, hq, if_true, if_false, List.length_append, List.length_cons, List.length_nil]
      omega
    · have hdividend : (BitVec.ofNat 32 (magnitude dividend)).toNat =
          remainderWord (magnitude dividend) (magnitude divisor) 16 := by
        rw [remainderWord_sixteen hpos (Nat.not_le.1 hq), ofNat_magnitude, magnitude_eq_toNat_abs]
      have hdivisor : (aligned (BitVec.ofNat 16 (magnitude divisor))).toNat =
          magnitude divisor * 0x10000 := by
        rw [toNat_aligned, ofNat_magnitude, magnitude_eq_toNat_abs]
      have hrounds := signedRounds_eq hdividend hdivisor (by decide) hpos hhalf
      have htest : 2 * (signedTestLabels dividend divisor).length =
          signedSetupClocks dividend +
            signedRounds (aligned (BitVec.ofNat 16 (magnitude divisor))) 15
              (BitVec.ofNat 32 (magnitude dividend)) +
            10 + 2 * (signsLabels divisor.msb dividend.msb).length := by
        rw [hrounds, ← hsetup]
        simp only [signedTestLabels, signedLastLabels, List.length_append, List.length_cons,
          List.length_nil]
        omega
      simp only [hd, hq, if_false]
      split <;> rw [List.length_append] <;> omega

/-! ## The clock -/

/-- The labels of a division. They depend on the operands only. -/
def Instruction.labels (i : Instruction) (dividend : Long) (divisor : Word) : List Microword :=
  match i with
  | divu => unsignedLabels dividend.toNat divisor.toNat
  | divs => signedLabels dividend divisor

theorem clocks_eq (i : Instruction) (dividend : Long) (divisor : Word) :
    i.clocks dividend divisor = 2 * (i.labels dividend divisor).length := by
  cases i with
  | divu => exact unsignedClocks_eq dividend divisor
  | divs => exact signedClocks_eq dividend divisor

/-- Every division goes its way through the control store. -/
theorem exists_completes (r : RegisterFile) (i : Instruction) :
    ∃ t, Completes r i (i.result r.dividend r.divisor) (i.labels r.dividend r.divisor) t := by
  cases i with
  | divu => exact exists_completes_divu r
  | divs => exact exists_completes_divs r

/-- Whether the clock counts a division can be told from the operands. -/
theorem counted_divide_iff {r : RegisterFile} {i : Instruction} :
    (r.divide i).Counted ↔ r.cycles.toNat + i.clocks r.dividend r.divisor < 2 ^ 64 := by
  obtain ⟨t, h⟩ := exists_completes r i
  rw [h.counted_iff, clocks_eq]

theorem toNat_cycles_divide {r : RegisterFile} {i : Instruction}
    (hcounted : (r.divide i).Counted) :
    (r.divide i).final.cycles.toNat = r.cycles.toNat + i.clocks r.dividend r.divisor := by
  obtain ⟨t, h⟩ := exists_completes r i
  rw [h.toNat_cycles hcounted, clocks_eq]

/-- Registers with something left in every place that a division does not read. -/
def staleRegisters (dividend : Long) (divisor : Word) (cycles : Clocks) : RegisterFile where
  dividendHi := dividend.high
  dividendLo := dividend.low
  divisor := divisor
  pcScratch := 0xDEADBEEF
  alu := 0x8001
  aluExt := 0xFFFF
  aluBuf := 0x7FFF
  addrHi := 0xA5A5
  addrLo := 0x5A5A
  counter := 0xFFFFFFFF
  flags := { carry := true, overflow := true, zero := true, negative := true, extend := true }
  controlState := .exit .dvuma
  cycles := cycles

/-- An unsigned division completes in the clocks that its timing says, whichever way it goes. -/
theorem cycles_divide_divu (r : RegisterFile) (hcounted : (r.divide .divu).Counted) :
    (r.divide .divu).ending = .completed ∧
      (r.divide .divu).final.cycles.toNat =
        r.cycles.toNat + unsignedClocks r.dividend r.divisor := by
  obtain ⟨t, h⟩ := exists_completes_divu r
  refine ⟨h.ending_eq hcounted, ?_⟩
  rw [h.toNat_cycles hcounted, unsignedClocks_eq]

/-- A division with rounds of all three lengths that takes the clock to its last count. -/
theorem cycles_divide_divu_to_last_count :
    let r := staleRegisters 0x7654321F 0xA5A5 (BitVec.ofNat 64 (2 ^ 64 - 101))
    (r.divide .divu).Counted ∧ (r.divide .divu).ending = .completed ∧
      (r.divide .divu).final.cycles.toNat = 2 ^ 64 - 1 := by
  intro r
  have hcounted : (r.divide .divu).Counted := counted_divide_iff.2 (by decide +kernel)
  obtain ⟨hending, hcycles⟩ := cycles_divide_divu r hcounted
  exact ⟨hcounted, hending, hcycles.trans (by decide +kernel)⟩

/-- A signed division completes in the clocks that its timing says, whichever way it goes. -/
theorem cycles_divide_divs (r : RegisterFile) (hcounted : (r.divide .divs).Counted) :
    (r.divide .divs).ending = .completed ∧
      (r.divide .divs).final.cycles.toNat =
        r.cycles.toNat + signedClocks r.dividend r.divisor := by
  obtain ⟨t, h⟩ := exists_completes_divs r
  refine ⟨h.ending_eq hcounted, ?_⟩
  rw [h.toNat_cycles hcounted, signedClocks_eq]

/-- Two negative operands whose quotient overflows after the rounds, at the end of the clock. -/
theorem cycles_divide_divs_late_overflow :
    let r := staleRegisters 0xC0000000 0x8000 (BitVec.ofNat 64 (2 ^ 64 - 153))
    (r.divide .divs).Counted ∧ (r.divide .divs).ending = .completed ∧
      (r.divide .divs).final.cycles.toNat = 2 ^ 64 - 1 := by
  intro r
  have hcounted : (r.divide .divs).Counted := counted_divide_iff.2 (by decide +kernel)
  obtain ⟨hending, hcycles⟩ := cycles_divide_divs r hcounted
  exact ⟨hcounted, hending, hcycles.trans (by decide +kernel)⟩

end DivisionMicrocode
