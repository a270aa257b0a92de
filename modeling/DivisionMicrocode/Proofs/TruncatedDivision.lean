import DivisionMicrocode.Proofs.Results
/-!
# Signed division is truncated division

The signed division works on absolute values and judges the quotient by the sign and the zero bit
of a word that may have wrapped around. Read as integers, it divides toward zero, and the judgement
asks whether the quotient is one that a word can hold.

* `signedResult_of_fitsWord`, `signedResult_of_not_fitsWord` — the result in terms of `Int.tdiv`
  and `Int.tmod`;
* `divide_divs_truncates` — what the microcode leaves in the dividend register, in these terms.
-/

namespace DivisionMicrocode

/-- The integer with the given absolute value, negated if so asked. -/
def signedValue (negative : Bool) (n : Nat) : Int := if negative then -n else n

/-- The integers that a word can hold as a signed number. -/
def FitsWord (q : Int) : Prop := -32768 ≤ q ∧ q ≤ 32767

variable {dividend : Long} {divisor : Word} {negative : Bool} {q : Nat}

/-! ## Words as integers -/

theorem toInt_eq_signedValue {w : Nat} (x : BitVec w) :
    x.toInt = signedValue x.msb (magnitude x) := by
  have hx := x.isLt
  rw [BitVec.toInt_eq_msb_cond, signedValue, magnitude]
  cases hsign : x.msb
  case false => rfl
  case true =>
    have hle := BitVec.le_toNat_of_msb_true hsign
    have hhalf : 0 < 2 ^ (w - 1) := Nat.two_pow_pos (w - 1)
    simp only [if_true, BitVec.toNat_neg]
    rw [Nat.mod_eq_of_lt (by omega)]
    omega

theorem ofInt_signedValue (negative : Bool) (n : Nat) :
    BitVec.ofInt 16 (signedValue negative n) = withSign negative (BitVec.ofNat 16 n) := by
  cases negative
  case false => exact BitVec.ofInt_natCast 16 n
  case true =>
    simp only [signedValue, withSign, if_true]
    rw [BitVec.ofInt_neg, BitVec.ofInt_natCast]

theorem toInt_ofInt_of_fitsWord {z : Int} (h : FitsWord z) : (BitVec.ofInt 16 z).toInt = z := by
  obtain ⟨hlow, hhigh⟩ := h
  apply BitVec.toInt_ofInt_eq_self (by decide)
  · omega
  · omega

theorem lt_of_fitsWord (h : FitsWord (signedValue negative q)) : q < 0x10000 := by
  unfold FitsWord signedValue at h
  split at h <;> omega

/-- The sign and the zero bit of the wrapped quotient tell whether it has wrapped. -/
theorem showsSign_iff (hq : q < 0x10000) :
    showsSign negative (withSign negative (BitVec.ofNat 16 q)) = true ↔
      FitsWord (signedValue negative q) := by
  have hword : (BitVec.ofNat 16 q).toNat = q := by
    rw [BitVec.toNat_ofNat, Nat.mod_eq_of_lt hq]
  unfold FitsWord
  cases negative
  case false =>
    simp only [showsSign, withSign, signedValue, Bool.false_eq_true, if_false, msb_eq_decide_word,
      hword, Bool.not_eq_true', decide_eq_false_iff_not]
    omega
  case true =>
    have hzero : -BitVec.ofNat 16 q = 0#16 ↔ q = 0 := by
      rw [BitVec.neg_eq_zero_iff, ← BitVec.toNat_inj, hword]
      rfl
    simp only [showsSign, withSign, signedValue, if_true, msb_eq_decide_word, BitVec.toNat_neg,
      hword, Bool.or_eq_true, decide_eq_true_iff, beq_iff_eq, BitVec.ofNat_eq_ofNat, hzero]
    omega

/-! ## The quotient and the remainder as integers -/

theorem tdiv_signedValue (x y : Bool) (m n : Nat) :
    (signedValue x m).tdiv (signedValue y n) = signedValue (x ^^ y) (m / n) := by
  cases x <;> cases y <;> simp [signedValue]

theorem tmod_signedValue (x y : Bool) (m n : Nat) :
    (signedValue x m).tmod (signedValue y n) = signedValue x (m % n) := by
  have hcast : (m : Int).tmod n = (m % n : Nat) := (Int.ofNat_tmod m n).symm
  cases x <;> cases y <;>
    simp only [signedValue, if_true, Bool.false_eq_true, if_false, Int.neg_tmod, Int.tmod_neg, hcast]

theorem tdiv_toInt (dividend : Long) (divisor : Word) :
    dividend.toInt.tdiv divisor.toInt =
      signedValue (dividend.msb ^^ divisor.msb) (magnitude dividend / magnitude divisor) := by
  rw [toInt_eq_signedValue, toInt_eq_signedValue, tdiv_signedValue]

theorem tmod_toInt (dividend : Long) (divisor : Word) :
    dividend.toInt.tmod divisor.toInt =
      signedValue dividend.msb (magnitude dividend % magnitude divisor) := by
  rw [toInt_eq_signedValue, toInt_eq_signedValue, tmod_signedValue]

/-- The remainder fits whatever the quotient does. -/
theorem fitsWord_tmod (hd : divisor ≠ 0) : FitsWord (dividend.toInt.tmod divisor.toInt) := by
  have hpos : 0 < magnitude divisor := (magnitude_pos_iff divisor).2 hd
  have hhalf := magnitude_le divisor
  have hlt : magnitude dividend % magnitude divisor < magnitude divisor := Nat.mod_lt _ hpos
  rw [tmod_toInt, signedValue, FitsWord]
  split <;> omega

theorem toInt_ne_zero (hd : divisor ≠ 0) : divisor.toInt ≠ 0 := by
  intro h
  exact hd (BitVec.eq_of_toInt_eq h)

/-! ## The result -/

theorem signedResult_of_fitsWord (hd : divisor ≠ 0)
    (hfits : FitsWord (dividend.toInt.tdiv divisor.toInt)) :
    signedResult dividend divisor =
      { remainder := BitVec.ofInt 16 (dividend.toInt.tmod divisor.toInt)
        quotient := BitVec.ofInt 16 (dividend.toInt.tdiv divisor.toInt)
        outcome := .normal } := by
  rw [tdiv_toInt] at hfits
  -- a quotient that fits with its sign is no early overflow
  have hq := lt_of_fitsWord hfits
  have hshows := (showsSign_iff hq).2 hfits
  rw [tdiv_toInt, tmod_toInt, ofInt_signedValue, ofInt_signedValue, signedResult]
  simp only [hd, Nat.not_le.2 hq, hshows, if_true, if_false]

theorem signedResult_of_not_fitsWord (hd : divisor ≠ 0)
    (hfits : ¬FitsWord (dividend.toInt.tdiv divisor.toInt)) :
    signedResult dividend divisor = .unchanged dividend .overflow := by
  rw [tdiv_toInt] at hfits
  unfold signedResult
  by_cases hq : 0x10000 ≤ magnitude dividend / magnitude divisor
  · simp only [hd, hq, if_true, if_false]
  · have hshows := mt (showsSign_iff (Nat.not_le.1 hq)).1 hfits
    simp only [hd, hq, hshows, if_false, Bool.false_eq_true]

theorem outcome_signedResult_eq_normal_iff :
    (signedResult dividend divisor).outcome = .normal ↔
      divisor ≠ 0 ∧ FitsWord (dividend.toInt.tdiv divisor.toInt) := by
  by_cases hd : divisor = 0
  · rw [signedResult, if_pos hd]
    exact iff_of_false nofun fun h => h.1 hd
  · by_cases hfits : FitsWord (dividend.toInt.tdiv divisor.toInt)
    · rw [signedResult_of_fitsWord hd hfits]
      exact iff_of_true rfl ⟨hd, hfits⟩
    · rw [signedResult_of_not_fitsWord hd hfits]
      exact iff_of_false nofun fun h => hfits h.2

/-- A signed division by a divisor other than zero completes normally exactly if the quotient,
truncated toward zero, is one that a word can hold. It then leaves this quotient and its remainder,
and otherwise the dividend. -/
theorem divide_divs_truncates (r : RegisterFile) (hcounted : (r.divide .divs).Counted)
    (hd : r.divisor ≠ 0) :
    let c := r.divide .divs
    let a := r.dividend.toInt
    let b := r.divisor.toInt
    (c.result = .ok .normal ↔ -32768 ≤ a.tdiv b ∧ a.tdiv b ≤ 32767) ∧
      (c.result = .ok .normal →
        c.final.dividendLo.toInt = a.tdiv b ∧ c.final.dividendHi.toInt = a.tmod b ∧
          a = c.final.dividendLo.toInt * b + c.final.dividendHi.toInt ∧
          c.final.dividendHi.toInt.natAbs < b.natAbs ∧
          (c.final.dividendHi.toInt = 0 ∨ c.final.dividendHi.toInt.sign = a.sign)) ∧
      (c.result ≠ .ok .normal → c.result = .ok .overflow ∧ c.final.dividend = r.dividend) := by
  intro c a b
  have hyields : c.Yields (signedResult r.dividend r.divisor) := yields_divide hcounted
  by_cases hfits : FitsWord (a.tdiv b)
  · rw [signedResult_of_fitsWord hd hfits] at hyields
    have hnormal : c.result = .ok .normal := hyields.result
    have hquotient : c.final.dividendLo.toInt = a.tdiv b := by
      rw [← toInt_ofInt_of_fitsWord hfits]
      exact congrArg BitVec.toInt hyields.quotient
    have hremainder : c.final.dividendHi.toInt = a.tmod b := by
      rw [← toInt_ofInt_of_fitsWord (fitsWord_tmod hd)]
      exact congrArg BitVec.toInt hyields.remainder
    refine ⟨⟨fun _ => hfits, fun _ => hnormal⟩, fun _ => ?_, fun hne => absurd hnormal hne⟩
    rw [hquotient, hremainder]
    refine ⟨rfl, rfl, (Int.tdiv_mul_add_tmod a b).symm, ?_, ?_⟩
    · have hpos := Int.natAbs_pos.2 (toInt_ne_zero hd)
      rw [Int.natAbs_tmod]
      exact Nat.mod_lt _ hpos
    · by_cases hdvd : b ∣ a
      · exact .inl (Int.tmod_eq_zero_of_dvd hdvd)
      · exact .inr (by rw [Int.sign_tmod, if_neg hdvd])
  · rw [signedResult_of_not_fitsWord hd hfits] at hyields
    have hoverflow : c.result = .ok .overflow := hyields.result
    have hne : c.result ≠ .ok .normal := by
      rw [hoverflow]
      decide
    exact ⟨⟨fun e => absurd e hne, fun e => absurd e hfits⟩, fun e => absurd e hne,
      fun _ => ⟨hoverflow, hyields.dividend_eq⟩⟩

/-- The least quotient with a remainder, and the two least operands, whose quotient is too large by
one bit. -/
theorem divide_divs_truncates_least :
    let r := staleRegisters 0xC0000002 0x7FFF 0
    let s := staleRegisters 0x80000000 0x8000 0
    ((r.divide .divs).Counted ∧ r.divisor ≠ 0 ∧ (r.divide .divs).result = .ok .normal ∧
        (r.divide .divs).final.dividendLo.toInt = -32768 ∧
        (r.divide .divs).final.dividendHi.toInt = -32766) ∧
      (s.divide .divs).Counted ∧ s.divisor ≠ 0 ∧ (s.divide .divs).result = .ok .overflow ∧
        (s.divide .divs).final.dividend = 0x80000000 := by
  intro r s
  have hcounted : (r.divide .divs).Counted := counted_divide_iff.2 (by decide +kernel)
  have hcounted' : (s.divide .divs).Counted := counted_divide_iff.2 (by decide +kernel)
  have hd : r.divisor ≠ 0 := by decide
  have hd' : s.divisor ≠ 0 := by decide
  obtain ⟨hnormal, hvalues, -⟩ := divide_divs_truncates r hcounted hd
  obtain ⟨hnormal', -, hfailed⟩ := divide_divs_truncates s hcounted' hd'
  have hresult := hnormal.2 (by decide +kernel)
  obtain ⟨hquotient, hremainder, -⟩ := hvalues hresult
  obtain ⟨hoverflow, hdividend⟩ := hfailed (mt hnormal'.1 (by decide +kernel))
  refine ⟨⟨hcounted, hd, hresult, hquotient.trans ?_, hremainder.trans ?_⟩,
    hcounted', hd', hoverflow, hdividend.trans ?_⟩
  · decide +kernel
  · decide +kernel
  · decide +kernel

end DivisionMicrocode
