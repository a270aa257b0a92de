import DivisionMicrocode.Proofs.Clocks
/-!
# The results of the divisions

What the microcode leaves in the dividend register is the result that the arithmetic of the
operands gives, on every way through the control store and whatever the other registers held
before.
-/

namespace DivisionMicrocode

variable {dividend : Long} {divisor : Word}

/-- A course that completes with the result `x`, which the registers then hold. -/
structure Course.Yields (c : Course) (x : DivisionResult) : Prop where
  result : c.result = .ok x.outcome
  remainder : c.final.remainder = x.remainder
  quotient : c.final.quotient = x.quotient
  controlState : c.final.controlState = .exit x.outcome.continuation

theorem Course.Yields.dividend_eq {c : Course} {o : Outcome}
    (h : c.Yields (.unchanged dividend o)) : c.final.dividend = dividend := by
  have hhi : c.final.dividendHi = dividend.high := h.remainder
  have hlo : c.final.dividendLo = dividend.low := h.quotient
  rw [RegisterFile.dividend, hhi, hlo, Long.ofWords_high_low]

theorem Completes.yields {r t : RegisterFile} {i : Instruction} {x : DivisionResult}
    {labels : List Microword} (h : Completes r i x labels t) (hcounted : (r.divide i).Counted) :
    (r.divide i).Yields x := by
  have hfinal := h.final_eq hcounted
  refine ⟨h.result_eq hcounted, ?_, ?_, ?_⟩
  · rw [hfinal, h.remainder]
  · rw [hfinal, h.quotient]
  · rw [hfinal, h.controlState]

theorem yields_divide {r : RegisterFile} {i : Instruction} (hcounted : (r.divide i).Counted) :
    (r.divide i).Yields (i.result r.dividend r.divisor) := by
  obtain ⟨t, h⟩ := exists_completes r i
  exact h.yields hcounted

/-- Both divisions trap at the same divisor. -/
theorem outcome_eq_divisionByZero_iff (i : Instruction) (dividend : Long) (divisor : Word) :
    (i.result dividend divisor).outcome = .divisionByZero ↔ divisor = 0 := by
  have hoverflow : Outcome.overflow ≠ .divisionByZero := by decide
  cases i with
  | divu =>
      dsimp only [Instruction.result, unsignedResult]
      split_ifs with hd
      · exact iff_of_true rfl hd
      · exact iff_of_false hoverflow hd
      · exact iff_of_false not_false hd
  | divs =>
      dsimp only [Instruction.result, signedResult]
      split_ifs with hd
      · exact iff_of_true rfl hd
      · exact iff_of_false hoverflow hd
      · exact iff_of_false not_false hd
      · exact iff_of_false hoverflow hd

/-! ## The unsigned division -/

theorem unsignedResult_of_zero (hd : divisor = 0) :
    unsignedResult dividend divisor = .unchanged dividend .divisionByZero := by
  exact if_pos hd

theorem unsignedResult_of_le (hd : divisor ≠ 0) (hq : 0x10000 ≤ dividend.toNat / divisor.toNat) :
    unsignedResult dividend divisor = .unchanged dividend .overflow := by
  rw [unsignedResult, if_neg hd, if_pos hq]

theorem unsignedResult_of_lt (hd : divisor ≠ 0) (hq : dividend.toNat / divisor.toNat < 0x10000) :
    unsignedResult dividend divisor =
      { remainder := BitVec.ofNat 16 (dividend.toNat % divisor.toNat)
        quotient := BitVec.ofNat 16 (dividend.toNat / divisor.toNat)
        outcome := .normal } := by
  rw [unsignedResult, if_neg hd, if_neg (Nat.not_le.2 hq)]

theorem outcome_unsignedResult (dividend : Long) (divisor : Word) :
    (unsignedResult dividend divisor).outcome =
      if divisor = 0 then .divisionByZero
      else if 0x10000 ≤ dividend.toNat / divisor.toNat then .overflow
      else .normal := by
  unfold unsignedResult
  split_ifs <;> rfl

/-- An unsigned division yields the quotient and the remainder of the natural numbers. It fails,
with the dividend register as it was, for a zero divisor and for a quotient of more than one
word. -/
theorem divide_divu_yields (r : RegisterFile) (hcounted : (r.divide .divu).Counted) :
    (r.divide .divu).Yields (unsignedResult r.dividend r.divisor) ∧
      (r.divide .divu).final.divisor = r.divisor ∧
      (r.divisor = 0 →
        (r.divide .divu).result = .ok .divisionByZero ∧
          (r.divide .divu).final.dividend = r.dividend) ∧
      (r.divisor ≠ 0 → 0x10000 ≤ r.dividend.toNat / r.divisor.toNat →
        (r.divide .divu).result = .ok .overflow ∧
          (r.divide .divu).final.dividend = r.dividend) ∧
      (r.divisor ≠ 0 → r.dividend.toNat / r.divisor.toNat < 0x10000 →
        (r.divide .divu).result = .ok .normal ∧
          (r.divide .divu).final.remainder.toNat = r.dividend.toNat % r.divisor.toNat ∧
          (r.divide .divu).final.quotient.toNat = r.dividend.toNat / r.divisor.toNat) := by
  obtain ⟨t, h⟩ := exists_completes_divu r
  have hyields := h.yields hcounted
  refine ⟨hyields, by rw [h.final_eq hcounted, h.divisor], ?_, ?_, ?_⟩
  · intro hd
    rw [unsignedResult_of_zero hd] at hyields
    exact ⟨hyields.result, hyields.dividend_eq⟩
  · intro hd hq
    rw [unsignedResult_of_le hd hq] at hyields
    exact ⟨hyields.result, hyields.dividend_eq⟩
  · intro hd hq
    have hpos := (toNat_pos_iff r.divisor).2 hd
    have hword := r.divisor.isLt
    have hrem : r.dividend.toNat % r.divisor.toNat < r.divisor.toNat := Nat.mod_lt _ hpos
    rw [unsignedResult_of_lt hd hq] at hyields
    refine ⟨hyields.result, ?_, ?_⟩
    · rw [hyields.remainder, BitVec.toNat_ofNat, Nat.mod_eq_of_lt (by omega)]
    · rw [hyields.quotient, BitVec.toNat_ofNat, Nat.mod_eq_of_lt hq]

/-- The greatest quotient with the greatest remainder, where every round loses a bit. -/
theorem divide_divu_yields_greatest :
    let r := staleRegisters 0xFFFEFFFF 0xFFFF 0
    (r.divide .divu).Counted ∧ r.divisor ≠ 0 ∧
      r.dividend.toNat / r.divisor.toNat < 0x10000 ∧ (r.divide .divu).result = .ok .normal ∧
      (r.divide .divu).final.remainder.toNat = 0xFFFE ∧
      (r.divide .divu).final.quotient.toNat = 0xFFFF := by
  intro r
  have hcounted : (r.divide .divu).Counted := counted_divide_iff.2 (by decide +kernel)
  have hd : r.divisor ≠ 0 := by decide
  have hq : r.dividend.toNat / r.divisor.toNat < 0x10000 := by decide +kernel
  obtain ⟨-, -, -, -, hnormal⟩ := divide_divu_yields r hcounted
  obtain ⟨hresult, hremainder, hquotient⟩ := hnormal hd hq
  refine ⟨hcounted, hd, hq, hresult, hremainder.trans ?_, hquotient.trans ?_⟩
  · decide +kernel
  · decide +kernel

/-! ## The signed division -/

/-- A signed division that does not complete normally has left the dividend alone. -/
theorem signedResult_of_ne_normal (h : (signedResult dividend divisor).outcome ≠ .normal) :
    signedResult dividend divisor =
      .unchanged dividend (signedResult dividend divisor).outcome := by
  revert h
  unfold signedResult
  dsimp only
  split_ifs <;> simp [DivisionResult.unchanged]

/-- A division of either kind that does not complete normally has left the dividend alone. -/
theorem result_of_ne_normal {i : Instruction} (h : (i.result dividend divisor).outcome ≠ .normal) :
    i.result dividend divisor = .unchanged dividend (i.result dividend divisor).outcome := by
  cases i with
  | divs => exact signedResult_of_ne_normal h
  | divu =>
    revert h
    simp only [Instruction.result, unsignedResult]
    split_ifs <;> simp [DivisionResult.unchanged]

/-- A signed division yields the quotient and the remainder of the absolute values with their
signs, in all quadrants. Whenever it fails, the dividend register is as it was. -/
theorem divide_divs_yields (r : RegisterFile) (hcounted : (r.divide .divs).Counted) :
    (r.divide .divs).Yields (signedResult r.dividend r.divisor) ∧
      (r.divide .divs).final.divisor = r.divisor ∧
      ((r.divide .divs).result ≠ .ok .normal →
        (r.divide .divs).final.dividend = r.dividend) := by
  obtain ⟨t, h⟩ := exists_completes_divs r
  have hyields := h.yields hcounted
  refine ⟨hyields, by rw [h.final_eq hcounted, h.divisor], ?_⟩
  intro hfailed
  have hnormal : (signedResult r.dividend r.divisor).outcome ≠ .normal := by
    intro hnormal
    rw [hyields.result, hnormal] at hfailed
    exact hfailed rfl
  rw [signedResult_of_ne_normal hnormal] at hyields
  exact hyields.dividend_eq

/-- The least quotient of a negative dividend, with a remainder; one more leaves the dividend
register as it was after all rounds. -/
theorem divide_divs_yields_least :
    let r := staleRegisters 0xC0007FFB 0x7FFF 0
    let s := staleRegisters 0xC0000000 0x7FFF 0
    ((r.divide .divs).Counted ∧ (r.divide .divs).result = .ok .normal ∧
        (r.divide .divs).final.remainder = -5 ∧ (r.divide .divs).final.quotient = 0x8000) ∧
      (s.divide .divs).Counted ∧ (s.divide .divs).result = .ok .overflow ∧
        (s.divide .divs).final.dividend = 0xC0000000 := by
  intro r s
  have hcounted : (r.divide .divs).Counted := counted_divide_iff.2 (by decide +kernel)
  have hcounted' : (s.divide .divs).Counted := counted_divide_iff.2 (by decide +kernel)
  have hvalue : signedResult r.dividend r.divisor = ⟨-5, 0x8000, .normal⟩ := by decide +kernel
  have hvalue' : (signedResult s.dividend s.divisor).outcome = .overflow := by decide +kernel
  obtain ⟨hyields, -⟩ := divide_divs_yields r hcounted
  obtain ⟨hyields', -, hfailed⟩ := divide_divs_yields s hcounted'
  rw [hvalue] at hyields
  have hresult : (s.divide .divs).result = .ok .overflow := by
    rw [hyields'.result, hvalue']
  refine ⟨⟨hcounted, hyields.result, hyields.remainder, hyields.quotient⟩, hcounted', hresult, ?_⟩
  exact (hfailed (by rw [hresult]; decide)).trans (by decide +kernel)

end DivisionMicrocode
