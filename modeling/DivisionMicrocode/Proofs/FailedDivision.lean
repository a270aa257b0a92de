import DivisionMicrocode.Proofs.FinalRegisters
import DivisionMicrocode.Proofs.MagnitudeDivision
/-!
# The registers after a division that fails

A division can fail at a zero divisor, at a quotient of more than one word before any round, and at
a signed quotient without its sign after all rounds. The operands are in place each time, and the
entry counter is in the scratch register of the program counter; the other registers hold what the
microcode had got to. After the rounds that depends on both signs, as each pair of signs has its own
way to the test.
-/

namespace DivisionMicrocode

open LongDivision

variable {r s : RegisterFile} {i : Instruction} {n d : Nat}

/-! ## What is left -/

/-- After a zero divisor. The signed division has cleared `alu` by then. -/
def RegisterFile.afterTrap (r : RegisterFile) (i : Instruction) : RegisterFile :=
  { r with
    pcScratch := r.counter
    alu := match i with
      | .divu => r.dividendHi
      | .divs => 0
    aluExt := r.dividendLo
    aluBuf := 0
    addrHi := 0
    flags := match i with
      | .divu => { zero := r.dividendHi == 0, negative := r.dividendHi.msb }
      | .divs => { zero := true }
    controlState := .exit .trap0 }

/-- After an overflow of the unsigned division. -/
def RegisterFile.afterUnsignedOverflow (r : RegisterFile) : RegisterFile :=
  { r with
    pcScratch := r.counter
    alu := r.dividendHi
    aluExt := r.dividendLo
    aluBuf := r.divisor
    addrHi := r.divisor
    addrLo := r.dividendHi
    counter := 16
    flags := { negative := r.dividendHi.msb }
    controlState := .exit .a1 }

/-- After an overflow of the signed division before its rounds. -/
def RegisterFile.afterEarlyOverflow (r : RegisterFile) : RegisterFile :=
  { r with
    pcScratch := r.counter
    alu := Long.high r.dividend.abs
    aluExt := Long.low r.dividend.abs
    aluBuf := r.divisor.abs
    addrHi := r.divisor
    addrLo := Long.high r.dividend.abs
    counter := 16
    flags := { negative := r.dividend.abs.msb }
    controlState := .exit .a1 }

/-- The flags after an overflow of the signed division after its rounds. A negative dividend has its
remainder negated before the overflow. Otherwise they are those of the quotient, which has been
negated for a negative divisor only. -/
def lateOverflowFlags (negativeDividend negativeDivisor : Bool) (quotient remainder : Word) :
    Flags :=
  if negativeDividend then
    { carry := remainder != 0
      overflow := false
      zero := remainder == 0
      negative := remainder != 0
      extend := remainder != 0 }
  else if negativeDivisor then { extend := true }
  else { negative := true, extend := quotient.toNat % 2 == 0 }

/-- After an overflow of the signed division after its rounds. -/
def RegisterFile.afterLateOverflow (r : RegisterFile) : RegisterFile :=
  let quotient : Word := BitVec.ofNat 16 (magnitude r.dividend / magnitude r.divisor)
  let remainder : Word := BitVec.ofNat 16 (magnitude r.dividend % magnitude r.divisor)
  let signed := withSign (r.dividend.msb ^^ r.divisor.msb) quotient
  { r with
    pcScratch := r.counter
    alu := if r.dividend.msb then -remainder else signed
    aluExt := quotient
    aluBuf := signed
    addrHi := remainder
    addrLo := signed
    counter := 0
    flags := lateOverflowFlags r.dividend.msb r.divisor.msb quotient remainder
    controlState := .exit .a1 }

/-- The registers `t` with the clock at the end of the division `i` of `r`. -/
def RegisterFile.clockedAfter (t r : RegisterFile) (i : Instruction) : RegisterFile :=
  { t with cycles := BitVec.ofNat 64 (r.cycles.toNat + i.clocks r.dividend r.divisor) }

/-! ## Before the rounds -/

theorem final_divide_trap (hcounted : (r.divide i).Counted) (hd : r.divisor = 0) :
    (r.divide i).final = (r.afterTrap i).clockedAfter r i := by
  cases i with
  | divu => exact final_divide_of_reaches (reaches_unsigned_trap hd) rfl hcounted
  | divs => exact final_divide_of_reaches (reaches_signed_trap hd) rfl hcounted

theorem final_divide_unsigned_overflow (hcounted : (r.divide .divu).Counted) (hd : r.divisor ≠ 0)
    (hq : 0x10000 ≤ r.dividend.toNat / r.divisor.toNat) :
    (r.divide .divu).final = r.afterUnsignedOverflow.clockedAfter r .divu := by
  have hpos := (toNat_pos_iff r.divisor).2 hd
  have hhi : r.divisor.toNat ≤ r.dividendHi.toNat := by
    rw [RegisterFile.toNat_dividendHi, ← Nat.not_lt, ← quotient_lt_iff hpos, Nat.not_lt]
    exact hq
  exact final_divide_of_reaches (reaches_unsigned_overflow hd hhi) rfl hcounted

/-- The upper word of the absolute value is not zero, as the absolute divisor fits into it. -/
theorem flags_withMagnitudes (hd : r.divisor ≠ 0)
    (hq : 0x10000 ≤ magnitude r.dividend / magnitude r.divisor) :
    r.withMagnitudes.flags = { negative := r.dividend.abs.msb } := by
  have hpos : 0 < magnitude r.divisor := (magnitude_pos_iff r.divisor).2 hd
  have hhigh : Long.high r.dividend.abs ≠ 0 := by
    apply (toNat_pos_iff _).1
    have hle := mt (quotient_lt_iff hpos).2 (Nat.not_lt.2 hq)
    rw [toNat_high_abs]
    omega
  have hmsb : (Long.high r.dividend.abs).msb = r.dividend.abs.msb := by
    rw [← Long.msb_ofWords (Long.high r.dividend.abs) (Long.low r.dividend.abs),
      Long.ofWords_high_low]
  rw [RegisterFile.withMagnitudes, hmsb, beq_eq_false_iff_ne.2 hhigh]

theorem final_divide_early_overflow (hcounted : (r.divide .divs).Counted) (hd : r.divisor ≠ 0)
    (hq : 0x10000 ≤ magnitude r.dividend / magnitude r.divisor) :
    (r.divide .divs).final = r.afterEarlyOverflow.clockedAfter r .divs := by
  rw [final_divide_of_reaches (reaches_early_overflow hd hq) rfl hcounted,
    RegisterFile.afterEarlyOverflow, ← flags_withMagnitudes hd hq]
  rfl

/-! ## After the rounds -/

/-- Below the sign bit a negation sets the sign exactly where it borrows. -/
theorem Flags.subtraction_neg_of_lt {x : Word} (hx : x.toNat < 0x8000) :
    Flags.subtraction 0 x (-x) =
      { carry := x != 0
        overflow := false
        zero := x == 0
        negative := x != 0
        extend := x != 0 } := by
  have hsign : x.msb = false := by
    rw [msb_eq_decide_word]
    exact decide_eq_false (Nat.not_le.2 hx)
  have hnone : (0 : Word).msb = false := rfl
  have hzero : (-x == 0) = (x == 0) := by
    rw [Bool.eq_iff_iff, beq_iff_eq, beq_iff_eq]
    bv_omega
  have hborrow : (Flags.subtraction 0 x (-x)).extend = (x != 0) := Flags.extend_negation x
  simp only [Flags.subtraction, hsign, hnone, Bool.xor_false, Bool.false_xor, Bool.false_and]
    at hborrow ⊢
  rw [hborrow, hzero]

/-- The flags where the quotient does not show its sign. -/
theorem flags_withSigns (hrem : s.addrLo.toNat < 0x8000) (hshows : s.quotientShowsSign = false) :
    s.withSigns.flags =
      if s.dividendHi.msb then
        { carry := s.addrLo != 0
          overflow := false
          zero := s.addrLo == 0
          negative := s.addrLo != 0
          extend := s.addrLo != 0 }
      else if s.divisor.msb then { extend := true }
      else { negative := true, extend := s.flags.extend } := by
  unfold RegisterFile.quotientShowsSign RegisterFile.signedQuotient at hshows
  unfold RegisterFile.withSigns RegisterFile.signsExtend RegisterFile.signedQuotient
  cases hdividend : s.dividendHi.msb
  case true => exact Flags.subtraction_neg_of_lt hrem
  case false =>
    cases hdivisor : s.divisor.msb
    case false =>
      -- the quotient is as the rounds have left it, with its sign bit set
      have hmsb : s.aluExt.msb = true := by
        simpa [hdividend, hdivisor, withSign, showsSign] using hshows
      have hne : s.aluExt ≠ 0#16 := by
        intro hzero
        rw [hzero] at hmsb
        cases hmsb
      simp [withSign, hmsb, hne]
    case true =>
      -- the negated quotient has its sign bit clear, and is not zero
      have hneg : (-s.aluExt).msb = false ∧ s.aluExt ≠ 0#16 := by
        simpa [hdividend, hdivisor, withSign, showsSign] using hshows
      simp [withSign, hneg.1, hneg.2]

theorem flags_withSigns_afterRounds (hrem : n % d < 0x8000)
    (hshows : (r.afterRounds n d).quotientShowsSign = false) :
    (r.afterRounds n d).withSigns.flags =
      lateOverflowFlags r.dividendHi.msb r.divisor.msb (BitVec.ofNat 16 (n / d))
        (BitVec.ofNat 16 (n % d)) := by
  have hword : (r.afterRounds n d).addrLo.toNat < 0x8000 := by
    rw [RegisterFile.afterRounds, BitVec.toNat_ofNat]
    omega
  rw [flags_withSigns hword hshows, lateOverflowFlags, ← not_quotientBit_zero]
  rfl

theorem quotientShowsSign_afterRounds (r : RegisterFile) :
    (r.afterRounds (magnitude r.dividend) (magnitude r.divisor)).quotientShowsSign =
      showsSign (r.dividend.msb ^^ r.divisor.msb)
        (withSign (r.dividend.msb ^^ r.divisor.msb)
          (BitVec.ofNat 16 (magnitude r.dividend / magnitude r.divisor))) := by
  rw [r.msb_dividend]
  rfl

theorem final_divide_late_overflow (hcounted : (r.divide .divs).Counted) (hd : r.divisor ≠ 0)
    (hq : magnitude r.dividend / magnitude r.divisor < 0x10000)
    (hoverflow : (signedResult r.dividend r.divisor).outcome = .overflow) :
    (r.divide .divs).final = r.afterLateOverflow.clockedAfter r .divs := by
  have hhalf := magnitude_le r.divisor
  have hrem : magnitude r.dividend % magnitude r.divisor < magnitude r.divisor :=
    Nat.mod_lt _ ((magnitude_pos_iff r.divisor).2 hd)
  let s := r.afterRounds (magnitude r.dividend) (magnitude r.divisor)
  have hshows : s.quotientShowsSign = false := by
    rw [signedResult, if_neg hd, if_neg (Nat.not_le.2 hq)] at hoverflow
    rw [quotientShowsSign_afterRounds, Bool.eq_false_iff]
    intro hshown
    rw [if_pos hshown] at hoverflow
    cases hoverflow
  have hway := (reaches_test hd hq).append (reaches_lateOverflow hshows)
  rw [final_divide_of_reaches hway rfl hcounted, RegisterFile.afterLateOverflow, r.msb_dividend,
    ← flags_withSigns_afterRounds (by omega) hshows]
  rfl

/-! ## All failures -/

/-- The registers after every division that fails, with the clock. -/
theorem final_divide_failed (r : RegisterFile) (i : Instruction)
    (hcounted : (r.divide i).Counted) :
    let c := r.divide i
    (c.result ≠ .ok .normal → c.result = .ok .divisionByZero ∨ c.result = .ok .overflow) ∧
      (c.result = .ok .divisionByZero ↔ r.divisor = 0) ∧
      (r.divisor = 0 → c.final = (r.afterTrap i).clockedAfter r i) ∧
      (i = .divu → c.result = .ok .overflow →
        c.final = r.afterUnsignedOverflow.clockedAfter r i) ∧
      (i = .divs → c.OverflowsEarly → c.final = r.afterEarlyOverflow.clockedAfter r i) ∧
      (i = .divs → c.result = .ok .overflow → ¬c.OverflowsEarly →
        c.final = r.afterLateOverflow.clockedAfter r i) ∧
      c.final.cycles.toNat = r.cycles.toNat + i.clocks r.dividend r.divisor := by
  intro c
  have hresult : c.result = .ok (i.result r.dividend r.divisor).outcome :=
    (yields_divide hcounted).result
  have hzero : c.result = .ok .divisionByZero ↔ r.divisor = 0 := by
    rw [hresult, Except.ok.injEq, outcome_eq_divisionByZero_iff]
  have hne (hoverflow : c.result = .ok .overflow) : r.divisor ≠ 0 := by
    intro hd
    rw [hzero.2 hd] at hoverflow
    cases hoverflow
  refine ⟨?_, hzero, final_divide_trap hcounted, ?_, ?_, ?_, toNat_cycles_divide hcounted⟩
  · rw [hresult]
    cases (i.result r.dividend r.divisor).outcome <;> simp
  · rintro rfl hoverflow
    have hd := hne hoverflow
    apply final_divide_unsigned_overflow hcounted hd
    rw [hresult, Except.ok.injEq, Instruction.result, outcome_unsignedResult, if_neg hd]
      at hoverflow
    by_contra hq
    rw [if_neg hq] at hoverflow
    cases hoverflow
  · rintro rfl hearly
    have hd := hne hearly.1
    exact final_divide_early_overflow hcounted hd ((overflowsEarly_iff hd hcounted).1 hearly)
  · rintro rfl hoverflow hlate
    have hd := hne hoverflow
    apply final_divide_late_overflow hcounted hd
    · exact Nat.not_le.1 (mt (overflowsEarly_iff hd hcounted).2 hlate)
    · rw [hresult] at hoverflow
      exact Except.ok.inj hoverflow

/-- A zero divisor, an overflow before the rounds, an even quotient that lacks its sign after them,
and the same with a remainder that has been negated. -/
theorem final_divide_failed_ways :
    let trapped := staleRegisters 0x8000FFFF 0 0
    let early := staleRegisters 0x80000000 1 0
    let positive := staleRegisters 0x00018001 2 0
    let negative := staleRegisters 0xC0000000 0x7FFF 0
    (trapped.divide .divu).final.flags = { negative := true } ∧
      (trapped.divide .divs).final.flags = { zero := true } ∧
      (early.divide .divu).final.aluBuf = 1 ∧
      ((early.divide .divs).OverflowsEarly ∧
        (early.divide .divs).final.addrLo = 0x8000 ∧
        (early.divide .divs).final.flags = { negative := true }) ∧
      ((positive.divide .divs).result = .ok .overflow ∧
        ¬(positive.divide .divs).OverflowsEarly ∧
        (positive.divide .divs).final.alu = 0xC000 ∧
        (positive.divide .divs).final.flags = { negative := true, extend := true }) ∧
      (negative.divide .divs).result = .ok .overflow ∧
        ¬(negative.divide .divs).OverflowsEarly ∧
        (negative.divide .divs).final.addrHi = 1 ∧
        (negative.divide .divs).final.alu = 0xFFFF ∧
        (negative.divide .divs).final.flags =
          { carry := true, negative := true, extend := true } := by
  intro trapped early positive negative
  have hcounted (i : Instruction) : (trapped.divide i).Counted ∧ (early.divide i).Counted := by
    constructor <;> apply counted_divide_iff.2 <;> cases i <;> decide +kernel
  have hpositive : (positive.divide .divs).Counted := counted_divide_iff.2 (by decide +kernel)
  have hnegative : (negative.divide .divs).Counted := counted_divide_iff.2 (by decide +kernel)
  have hresult : (early.divide .divu).result = .ok .overflow :=
    (yields_divide (hcounted .divu).2).result.trans (by decide +kernel)
  have hresult' : (positive.divide .divs).result = .ok .overflow :=
    (yields_divide hpositive).result.trans (by decide +kernel)
  have hresult'' : (negative.divide .divs).result = .ok .overflow :=
    (yields_divide hnegative).result.trans (by decide +kernel)
  have hearly := (overflowsEarly_iff (by decide) (hcounted .divs).2).2 (by decide +kernel)
  have hlate := mt (overflowsEarly_iff (by decide) hpositive).1 (by decide +kernel)
  have hlate' := mt (overflowsEarly_iff (by decide) hnegative).1 (by decide +kernel)
  obtain ⟨-, -, htrap, -⟩ := final_divide_failed trapped .divu (hcounted .divu).1
  obtain ⟨-, -, htrap', -⟩ := final_divide_failed trapped .divs (hcounted .divs).1
  obtain ⟨-, -, -, hfinal, -⟩ := final_divide_failed early .divu (hcounted .divu).2
  obtain ⟨-, -, -, -, hfinal', -⟩ := final_divide_failed early .divs (hcounted .divs).2
  obtain ⟨-, -, -, -, -, hkept, -⟩ := final_divide_failed positive .divs hpositive
  obtain ⟨-, -, -, -, -, hkept', -⟩ := final_divide_failed negative .divs hnegative
  rw [htrap (by decide), htrap' (by decide), hfinal rfl hresult, hfinal' rfl hearly,
    hkept rfl hresult' hlate, hkept' rfl hresult'' hlate']
  refine ⟨?_, ?_, ?_, ⟨hearly, ?_, ?_⟩, ⟨hresult', hlate, ?_, ?_⟩, hresult'', hlate', ?_, ?_, ?_⟩
  all_goals decide +kernel

end DivisionMicrocode
