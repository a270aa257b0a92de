import DivisionMicrocode.Proofs.TruncatedDivision
/-!
# The registers after a division

A division that completes normally determines every register and every flag, not only those that
hold its result: what the last round and the write-back leave in the scratch registers is a function
of the operands as well.
-/

namespace DivisionMicrocode

open LongDivision RegisterFile

variable {r t : RegisterFile} {i : Instruction} {labels : List Microword} {n d q : Nat}

/-- A way to a terminal microword tells the registers at the end; their clock follows from the
operands. -/
theorem final_divide_of_reaches (h : Reaches (r.enter i) labels t)
    (ht : t.controlState.isTerminal = true) (hcounted : (r.divide i).Counted) :
    (r.divide i).final =
      { t with cycles := BitVec.ofNat 64 (r.cycles.toNat + i.clocks r.dividend r.divisor) } := by
  have hcycles := toNat_cycles_divide hcounted
  obtain ⟨c, visited, p, -⟩ := h
  have hrun : r.divide i = _ := run_eq_of_path p ht (lt_of_counted_run p ht hcounted)
  rw [← hcycles, BitVec.ofNat_toNat, BitVec.setWidth_eq, hrun]

/-! ## The unsigned division -/

theorem ofNat_word_eq_zero (hq : q < 0x10000) : (BitVec.ofNat 16 q == 0) = (q == 0) := by
  rw [Bool.eq_iff_iff, beq_iff_eq, beq_iff_eq, ← BitVec.toNat_inj, BitVec.toNat_ofNat,
    Nat.mod_eq_of_lt hq]
  rfl

theorem msb_ofNat_word (q : Nat) : (BitVec.ofNat 16 q).msb = q.testBit 15 := by
  rw [BitVec.msb_eq_getLsbD_last, BitVec.getLsbD_ofNat]
  rfl

/-- The registers after an unsigned division whose quotient fits a word. -/
theorem final_divide_divu (r : RegisterFile) (hcounted : (r.divide .divu).Counted)
    (hd : r.divisor ≠ 0) (hq : r.dividend.toNat / r.divisor.toNat < 0x10000) :
    let q := r.dividend.toNat / r.divisor.toNat
    let rem := r.dividend.toNat % r.divisor.toNat
    let c := r.divide .divu
    c.result = .ok .normal ∧
      c.final =
        { dividendHi := BitVec.ofNat 16 rem
          dividendLo := BitVec.ofNat 16 q
          divisor := r.divisor
          pcScratch := r.counter
          alu := BitVec.ofNat 16 q
          aluExt := BitVec.ofNat 16 q
          aluBuf := 0
          addrHi := r.divisor
          addrLo := BitVec.ofNat 16 (rem + r.divisor.toNat * (q % 2))
          counter := r.counter + 2
          flags :=
            { carry := false
              overflow := false
              zero := q == 0
              negative := q.testBit 15
              extend := false }
          controlState := .exit .a1
          cycles := BitVec.ofNat 64 (r.cycles.toNat + unsignedClocks r.dividend r.divisor) } ∧
      c.final.cycles.toNat = r.cycles.toNat + unsignedClocks r.dividend r.divisor := by
  intro q rem c
  have hyields : c.Yields (unsignedResult r.dividend r.divisor) := yields_divide hcounted
  rw [unsignedResult_of_lt hd hq] at hyields
  refine ⟨hyields.result, ?_, toNat_cycles_divide hcounted⟩
  rw [← ofNat_word_eq_zero hq, ← msb_ofNat_word]
  exact final_divide_of_reaches (reaches_unsigned_result hd hq) rfl hcounted

/-- An odd quotient, whose last round subtracts the divisor, and an even one with its top bit set,
whose last round does not. -/
theorem final_divide_divu_odd_even :
    let odd := staleRegisters 0x7654321E 0xFFF1 0
    let even := staleRegisters 0xFFFDFFFF 0xFFFF 0
    ((odd.divide .divu).Counted ∧ odd.divisor ≠ 0 ∧
        odd.dividend.toNat / odd.divisor.toNat < 0x10000 ∧
        (odd.divide .divu).final.dividendHi = 0x2173 ∧
        (odd.divide .divu).final.addrLo = 0x2164 ∧
        (odd.divide .divu).final.counter = 1) ∧
      (even.divide .divu).Counted ∧ even.divisor ≠ 0 ∧
        even.dividend.toNat / even.divisor.toNat < 0x10000 ∧
        (even.divide .divu).final.dividendHi = 0xFFFD ∧
        (even.divide .divu).final.addrLo = 0xFFFD ∧
        (even.divide .divu).final.flags = { negative := true } := by
  intro odd even
  have hcounted : (odd.divide .divu).Counted := counted_divide_iff.2 (by decide +kernel)
  have hcounted' : (even.divide .divu).Counted := counted_divide_iff.2 (by decide +kernel)
  have hd : odd.divisor ≠ 0 := by decide
  have hd' : even.divisor ≠ 0 := by decide
  have hq : odd.dividend.toNat / odd.divisor.toNat < 0x10000 := by decide +kernel
  have hq' : even.dividend.toNat / even.divisor.toNat < 0x10000 := by decide +kernel
  obtain ⟨-, hfinal, -⟩ := final_divide_divu odd hcounted hd hq
  obtain ⟨-, hfinal', -⟩ := final_divide_divu even hcounted' hd' hq'
  rw [hfinal, hfinal']
  refine ⟨⟨hcounted, hd, hq, ?_, ?_, ?_⟩, hcounted', hd', hq', ?_, ?_, ?_⟩ <;> decide +kernel

/-! ## The signed division -/

theorem signedQuotient_afterRounds (r : RegisterFile) :
    (r.afterRounds (magnitude r.dividend) (magnitude r.divisor)).signedQuotient =
      BitVec.ofInt 16 (r.dividend.toInt.tdiv r.divisor.toInt) := by
  rw [tdiv_toInt, ofInt_signedValue, msb_dividend]
  rfl

theorem withSign_addrLo_afterRounds (r : RegisterFile) :
    withSign r.dividendHi.msb (r.afterRounds (magnitude r.dividend) (magnitude r.divisor)).addrLo =
      BitVec.ofInt 16 (r.dividend.toInt.tmod r.divisor.toInt) := by
  rw [tmod_toInt, ofInt_signedValue, msb_dividend]
  rfl

theorem natAbs_signedValue (negative : Bool) (n : Nat) : (signedValue negative n).natAbs = n := by
  cases negative <;> simp [signedValue]

theorem withSign_ne_zero (negative : Bool) (x : Word) : (withSign negative x != 0#16) = (x != 0#16) := by
  cases negative
  · rfl
  · rw [Bool.eq_iff_iff]
    simp [withSign]

theorem not_quotientBit_zero (n d : Nat) :
    (!quotientBit n d 0) = ((BitVec.ofNat 16 (n / d)).toNat % 2 == 0) := by
  have hword : (BitVec.ofNat 16 (n / d)).toNat % 2 = n / d % 2 := by
    rw [BitVec.toNat_ofNat]
    omega
  have hbit : (quotientBit n d 0).toNat = n / d % 2 := by
    rw [toNat_quotientBit, Nat.pow_zero, Nat.div_one]
  rw [hword, ← hbit]
  cases quotientBit n d 0 <;> rfl

/-- The extend flag is left by the last subtraction: the negation of the remainder, that of the
quotient, or else the comparison of the last round. -/
theorem signsExtend_afterRounds (hd : r.divisor ≠ 0) :
    (r.afterRounds (magnitude r.dividend) (magnitude r.divisor)).signsExtend =
      if r.dividend.toInt < 0 then BitVec.ofInt 16 (r.dividend.toInt.tmod r.divisor.toInt) != 0
      else if 0 < r.divisor.toInt then
        (BitVec.ofInt 16 (r.dividend.toInt.tdiv r.divisor.toInt)).toNat % 2 == 0
      else BitVec.ofInt 16 (r.dividend.toInt.tdiv r.divisor.toInt) != 0 := by
  have hdividend : r.dividendHi.msb = decide (r.dividend.toInt < 0) := by
    rw [← msb_dividend, BitVec.msb_eq_toInt]
  have hdivisor : r.divisor.msb = !decide (0 < r.divisor.toInt) := by
    have hne := toInt_ne_zero hd
    rw [BitVec.msb_eq_toInt, ← decide_not]
    exact decide_eq_decide.2 (by omega)
  rw [← signedQuotient_afterRounds, ← withSign_addrLo_afterRounds]
  unfold signsExtend signedQuotient
  by_cases ha : r.dividend.toInt < 0
  -- the remainder is negated after the quotient
  case pos => simp [afterRounds, hdividend, ha, withSign_ne_zero]
  case neg =>
    by_cases hb : 0 < r.divisor.toInt
    case pos =>
      -- nothing is negated, and what is left is the borrow of the last comparison
      simp only [afterRounds, hdividend, hdivisor, ha, hb, decide_true, decide_false, Bool.not_true,
        Bool.xor_false, withSign, Bool.false_eq_true, if_false, if_true]
      exact not_quotientBit_zero _ _
    case neg => simp [afterRounds, hdividend, hdivisor, ha, hb, withSign_ne_zero]

/-- The registers after a signed division that neither traps nor overflows. -/
theorem final_divide_divs (r : RegisterFile) (hcounted : (r.divide .divs).Counted) :
    let a := r.dividend.toInt
    let b := r.divisor.toInt
    let q : Word := BitVec.ofInt 16 (a.tdiv b)
    let rem : Word := BitVec.ofInt 16 (a.tmod b)
    let c := r.divide .divs
    (c.result = .ok .normal ↔ r.divisor ≠ 0 ∧ -32768 ≤ a.tdiv b ∧ a.tdiv b ≤ 32767) ∧
      (c.result = .ok .normal →
        c.final =
          { dividendHi := rem
            dividendLo := q
            divisor := r.divisor
            pcScratch := r.counter
            alu := q
            aluExt := BitVec.ofNat 16 (a.tdiv b).natAbs
            aluBuf := q
            addrHi := rem
            addrLo := q
            counter := 0
            flags :=
              { carry := false
                overflow := false
                zero := q == 0
                negative := q.msb
                extend :=
                  if a < 0 then rem != 0 else if 0 < b then q.toNat % 2 == 0 else q != 0 }
            controlState := .exit .a1
            cycles := BitVec.ofNat 64 (r.cycles.toNat + signedClocks r.dividend r.divisor) } ∧
          c.final.cycles.toNat = r.cycles.toNat + signedClocks r.dividend r.divisor) := by
  intro a b q rem c
  have hyields : c.Yields (signedResult r.dividend r.divisor) := yields_divide hcounted
  have hnormal : c.result = .ok .normal ↔ r.divisor ≠ 0 ∧ FitsWord (a.tdiv b) := by
    rw [hyields.result, Except.ok.injEq]
    exact outcome_signedResult_eq_normal_iff
  refine ⟨hnormal, fun h => ⟨?_, toNat_cycles_divide hcounted⟩⟩
  obtain ⟨hd, hfits⟩ := hnormal.1 h
  -- the quotient of the magnitudes fits a word, with its sign as well, so neither test stops it
  let s := r.afterRounds (magnitude r.dividend) (magnitude r.divisor)
  have hvalue : FitsWord (signedValue _ (magnitude r.dividend / magnitude r.divisor)) :=
    tdiv_toInt r.dividend r.divisor ▸ hfits
  have hq := lt_of_fitsWord hvalue
  have hshows : s.quotientShowsSign = true := by
    have hshown := (showsSign_iff hq).2 hvalue
    rw [r.msb_dividend] at hshown
    exact hshown
  have hquotient : s.signedQuotient = q := signedQuotient_afterRounds r
  have hremainder : withSign s.dividendHi.msb s.addrLo = rem := withSign_addrLo_afterRounds r
  have hextend : s.signsExtend = _ := signsExtend_afterRounds hd
  have hmagnitude : (a.tdiv b).natAbs = magnitude r.dividend / magnitude r.divisor := by
    rw [tdiv_toInt, natAbs_signedValue]
  have hway := (reaches_test hd hq).append (reaches_writeBack hshows)
  have hfinal := final_divide_of_reaches hway rfl hcounted
  rw [hmagnitude]
  rw [hremainder, hquotient, hextend] at hfinal
  exact hfinal

/-- The most negative quotient, from a positive divisor, and an even quotient of two positive
operands, which sets the extend flag without a negation. -/
theorem final_divide_divs_quadrants :
    let negative := staleRegisters 0xC0007FFB 0x7FFF 0
    let positive := staleRegisters 0x0000002D 0x0007 0
    ((negative.divide .divs).Counted ∧ (negative.divide .divs).result = .ok .normal ∧
        (negative.divide .divs).final.dividendLo = 0x8000 ∧
        (negative.divide .divs).final.aluExt = 0x8000 ∧
        (negative.divide .divs).final.dividendHi = 0xFFFB ∧
        (negative.divide .divs).final.flags = { negative := true, extend := true }) ∧
      (positive.divide .divs).Counted ∧ (positive.divide .divs).result = .ok .normal ∧
        (positive.divide .divs).final.dividendLo = 6 ∧
        (positive.divide .divs).final.addrHi = 3 ∧
        (positive.divide .divs).final.flags = { extend := true } := by
  intro negative positive
  have hcounted : (negative.divide .divs).Counted := counted_divide_iff.2 (by decide +kernel)
  have hcounted' : (positive.divide .divs).Counted := counted_divide_iff.2 (by decide +kernel)
  obtain ⟨hiff, hnormal⟩ := final_divide_divs negative hcounted
  obtain ⟨hiff', hnormal'⟩ := final_divide_divs positive hcounted'
  have h := hiff.2 (by decide +kernel)
  have h' := hiff'.2 (by decide +kernel)
  rw [(hnormal h).1, (hnormal' h').1]
  refine ⟨⟨hcounted, h, ?_, ?_, ?_, ?_⟩, hcounted', h', ?_, ?_, ?_⟩ <;> decide +kernel

end DivisionMicrocode
