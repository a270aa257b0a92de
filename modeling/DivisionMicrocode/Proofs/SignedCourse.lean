import DivisionMicrocode.Proofs.Completion
import DivisionMicrocode.Proofs.Round
import DivisionMicrocode.Proofs.SignFixup
/-!
# The course of a signed division

The ways of a signed division through the control store: a zero divisor, a quotient of the absolute
values that needs more than one word, and sixteen rounds on the absolute values, after which the
signs decide. The absolute divisor is at most `0x8000`, so no round loses a bit, and a round needs
one way less than in the unsigned division.
-/

namespace DivisionMicrocode

open ControlStore LongDivision RegisterFile

/-- The microword that starts a round and shifts in the quotient bit of the round before. -/
def signedHead (bit : Bool) : Microword := .signed (if bit then .dvs0a else .dvs09)

/-- The labels up to the test of the absolute values. -/
def signedSetupLabels (negativeDivisor negativeDividend : Bool) : List Microword :=
  [.signed .dvs01, .signed .dvs03, .signed (if negativeDivisor then .dvs05 else .dvs04)] ++
    .signed .dvs06 ::
      if negativeDividend then [.signed .dvs10, .signed .dvs11, .signed .dvs08]
      else [.signed .dvs07, .signed .dvs08]

/-- The labels of the round that finds the bit of weight `2 ^ c`, for `c` other than zero. -/
def signedRoundLabels (n d c : Nat) : List Microword :=
  [signedHead (quotientBit n d (c + 1)), .signed .dvs0c] ++
    .signed .dvs0d :: if quotientBit n d c then [] else [.signed .dvs0f]

/-- The labels of the last round, up to the look at the sign of the divisor. -/
def signedLastLabels (n d : Nat) : List Microword :=
  [signedHead (quotientBit n d 1), .signed .dvs0c] ++
    [.signed .dvs0e, .signed (if quotientBit n d 0 then .dvs13 else .dvs12), .signed .dvs14]

/-- The labels up to the test of the quotient. -/
def signedTestLabels (dividend : Long) (divisor : Word) : List Microword :=
  signedSetupLabels divisor.msb dividend.msb ++
    loopLabels (signedRoundLabels (magnitude dividend) (magnitude divisor)) 15 ++
      signedLastLabels (magnitude dividend) (magnitude divisor) ++
        signsLabels divisor.msb dividend.msb

/-- The labels of the signed division. -/
def signedLabels (dividend : Long) (divisor : Word) : List Microword :=
  let quotient := magnitude dividend / magnitude divisor
  let negative := dividend.msb ^^ divisor.msb
  if divisor = 0 then
    [.signed .dvs01, .signed .dvs03]
  else if 0x10000 ≤ quotient then
    signedSetupLabels divisor.msb dividend.msb ++ [.exit .dvumz, .exit .dvuma]
  else if showsSign negative (withSign negative (BitVec.ofNat 16 quotient)) then
    signedTestLabels dividend divisor ++ writeBackLabels dividend.msb
  else
    signedTestLabels dividend divisor ++ lateOverflowLabels dividend.msb

variable {r s : RegisterFile} {n d c : Nat}

/-! ## A round -/

/-- No bit leaves the shift register. -/
theorem fits_of_le (hd : 0 < d) (hhalf : d ≤ 0x8000) :
    2 * partialRemainder n d (c + 1) + n / 2 ^ c % 2 < 0x10000 := by
  have hlt : partialRemainder n d (c + 1) < d := partialRemainder_lt hd
  omega

theorem exists_signed_subtract (h : RoundHead signedHead r n d (c + 1) s) (hc : c < 16)
    (hq : n / d < 0x10000) :
    ∃ t, Leads s [signedHead (quotientBit n d (c + 1)), .signed .dvs0c] t ∧
      RoundSubtracted r n d c t ∧ t.controlState = .signed (if c = 0 then .dvs0e else .dvs0d) := by
  let next : Branch := .goto (.signed .dvs0c)
  have hfetch : fetch (signedHead (quotientBit n d (c + 1))) =
      some (shiftRound (quotientBit n d (c + 1)) next) := by
    cases quotientBit n d (c + 1) <;> rfl
  have h₁ := h.shift hc hq next
  have hw₁ : (s.pass (shiftRound (quotientBit n d (c + 1)) next)).controlState =
      .signed .dvs0c := by
    rw [controlState_pass]
    rfl
  refine ⟨_, .cons h.controlState hfetch (.cons hw₁ rfl (.nil _)), h₁.subtract _ _, ?_⟩
  apply (h₁.controlState_subtract (.signed .dvs0d) (.signed .dvs0e)).trans
  split <;> rfl

theorem exists_signed_round (hd : 0 < d) (hhalf : d ≤ 0x8000) (hq : n / d < 0x10000) (c : Nat)
    (s : RegisterFile) (hpos : 0 < c) (hc : c < 16) (h : RoundHead signedHead r n d (c + 1) s) :
    ∃ t, Leads s (signedRoundLabels n d c) t ∧ RoundHead signedHead r n d c t := by
  obtain ⟨s₂, l₂, h₂, hw₂⟩ := exists_signed_subtract h hc hq
  rw [if_neg hpos.ne'] at hw₂
  obtain ⟨t, l₃, h₃⟩ := h₂.exists_look signedHead hd (fits_of_le hd hhalf) hw₂ rfl rfl
  exact ⟨t, l₂.append l₃, h₃⟩

/-! ## The absolute values -/

section

attribute [local simp] RegisterFile.pass perform issue? issue afterMove afterAlu afterAddress
  AluOp.map operand RegisterFile.read write Branch.target Condition.holds enter signed distribute
  probe negate loopCount Flags.logical Flags.subtraction_zero Flags.carry_subtraction
  Flags.extend_subtraction Flags.extend_negation

theorem reaches_signed_trap (hd : r.divisor = 0) :
    Reaches (r.enter .divs) [.signed .dvs01, .signed .dvs03]
      { r with
        pcScratch := r.counter
        alu := 0
        aluExt := r.dividendLo
        aluBuf := 0
        addrHi := 0
        flags := { zero := true }
        controlState := .exit .trap0 } := by
  refine .of_eq (.cons rfl rfl (.cons rfl rfl (.nil _))) ?_
  simp [hd]

theorem reaches_abs_divisor (hd : r.divisor ≠ 0) :
    Reaches (r.enter .divs)
      [.signed .dvs01, .signed .dvs03, .signed (if r.divisor.msb then .dvs05 else .dvs04)]
      { r with
        pcScratch := r.counter
        alu := r.dividendHi
        aluExt := r.dividendLo
        aluBuf := r.divisor.abs
        addrHi := r.divisor
        addrLo := r.dividendHi
        counter := loopCount
        flags := { zero := r.dividendHi == 0, negative := r.dividendHi.msb, extend := true }
        controlState := .signed .dvs06 } := by
  have hne : r.divisor ≠ 0#16 := hd
  cases hsign : r.divisor.msb
  case false =>
    refine .of_eq (.cons rfl rfl (.cons rfl rfl (.cons ?_ rfl (.nil _)))) ?_
    · simp [hsign, hne]
    · simp [BitVec.abs_eq, hsign, hne]
  case true =>
    refine .of_eq (.cons rfl rfl (.cons rfl rfl (.cons ?_ rfl (.nil _)))) ?_
    · simp [hsign]
    · simp [BitVec.abs_eq, hsign, hne]

/-- The absolute value of the dividend, and whether the absolute divisor fits into its upper
word. -/
theorem reaches_abs_dividend (hw : s.controlState = .signed .dvs06)
    (hnegative : s.flags.negative = s.dividendHi.msb) (hhi : s.addrLo = s.dividendHi)
    (hlo : s.aluExt = s.dividendLo) :
    Reaches s
      (.signed .dvs06 ::
        if s.dividend.msb then [.signed .dvs10, .signed .dvs11, .signed .dvs08]
        else [.signed .dvs07, .signed .dvs08])
      { s with
        alu := Long.high s.dividend.abs
        aluExt := Long.low s.dividend.abs
        addrLo := Long.high s.dividend.abs
        flags :=
          { zero := Long.high s.dividend.abs == 0
            negative := (Long.high s.dividend.abs).msb
            extend := decide ((Long.high s.dividend.abs).toNat < s.aluBuf.toNat) }
        controlState :=
          if (Long.high s.dividend.abs).toNat < s.aluBuf.toNat then .signed .dvs09
          else .exit .dvumz } := by
  have hhigh := s.high_dividend
  have hlow := s.low_dividend
  rw [BitVec.abs_eq, s.msb_dividend]
  -- a negative dividend takes one more microword: the borrow of its lower word comes in between
  cases hsign : s.dividendHi.msb
  case false =>
    refine .of_eq (.cons hw rfl (.cons ?_ rfl (.cons rfl rfl (.nil _)))) ?_
    · simp [hnegative, hsign]
    · simp [hhigh, hlow, hhi, hlo]
  case true =>
    refine .of_eq (.cons hw rfl (.cons ?_ rfl (.cons rfl rfl (.cons rfl rfl (.nil _))))) ?_
    · simp [hnegative, hsign]
    · simp [Long.high_neg, Long.low_neg, hhigh, hlow]

/-- The registers with the absolute values of the operands in place, before the test of whether the
divisor fits into the upper word of the dividend. -/
def RegisterFile.withMagnitudes (r : RegisterFile) : RegisterFile :=
  { r with
    pcScratch := r.counter
    alu := Long.high r.dividend.abs
    aluExt := Long.low r.dividend.abs
    aluBuf := r.divisor.abs
    addrHi := r.divisor
    addrLo := Long.high r.dividend.abs
    counter := loopCount
    flags := { zero := Long.high r.dividend.abs == 0, negative := (Long.high r.dividend.abs).msb } }

theorem reaches_magnitudes (hd : r.divisor ≠ 0) :
    Reaches (r.enter .divs) (signedSetupLabels r.divisor.msb r.dividend.msb)
      { r.withMagnitudes with
        flags :=
          { r.withMagnitudes.flags with
            extend := decide ((Long.high r.dividend.abs).toNat < magnitude r.divisor) }
        controlState :=
          if (Long.high r.dividend.abs).toNat < magnitude r.divisor then .signed .dvs09
          else .exit .dvumz } := by
  apply (reaches_abs_divisor hd).append
  intro c
  exact reaches_abs_dividend rfl rfl rfl rfl

theorem toNat_high_abs (r : RegisterFile) :
    (Long.high r.dividend.abs).toNat = magnitude r.dividend / 0x10000 := by
  rw [Long.toNat_high, magnitude_eq_toNat_abs]

/-- A quotient that needs more than one word leads to the overflow. -/
theorem reaches_early_overflow (hd : r.divisor ≠ 0)
    (hq : 0x10000 ≤ magnitude r.dividend / magnitude r.divisor) :
    Reaches (r.enter .divs)
      (signedSetupLabels r.divisor.msb r.dividend.msb ++ [.exit .dvumz, .exit .dvuma])
      { r.withMagnitudes with controlState := .exit .a1 } := by
  have hpos : 0 < magnitude r.divisor := (magnitude_pos_iff r.divisor).2 hd
  have hhi : ¬(Long.high r.dividend.abs).toNat < magnitude r.divisor := by
    rw [toNat_high_abs, ← quotient_lt_iff hpos]
    omega
  apply (reaches_magnitudes hd).append
  intro c
  refine .of_eq (.cons (if_neg hhi) rfl (.cons rfl rfl (.nil _))) ?_
  simp [hhi, withMagnitudes]

/-- Any other operands lead to the first round. -/
theorem exists_signed_start (hd : r.divisor ≠ 0)
    (hq : magnitude r.dividend / magnitude r.divisor < 0x10000) :
    ∃ t, Leads (r.enter .divs) (signedSetupLabels r.divisor.msb r.dividend.msb) t ∧
      RoundHead signedHead r (magnitude r.dividend) (magnitude r.divisor) 16 t := by
  have hpos : 0 < magnitude r.divisor := (magnitude_pos_iff r.divisor).2 hd
  have hhi : (Long.high r.dividend.abs).toNat < magnitude r.divisor := by
    rw [toNat_high_abs]
    exact (quotient_lt_iff hpos).1 hq
  obtain ⟨c, l⟩ := reaches_magnitudes hd
  refine ⟨_, l, ⟨⟨rfl, rfl, rfl, rfl, rfl⟩, rfl, ?_, ?_, rfl, rfl⟩, ?_⟩
  · rw [partialRemainder_sixteen hpos hq, ← toNat_high_abs]
    rfl
  · rw [shiftRegister_sixteen hq]
    exact Long.toNat_low r.dividend.abs
  · rw [quotientBit_sixteen hq]
    exact if_pos hhi

/-- The registers before the signs are looked at, after the rounds have divided `n` by `d`. -/
def RegisterFile.afterRounds (r : RegisterFile) (n d : Nat) : RegisterFile :=
  { r with
    pcScratch := r.counter
    alu := r.divisor
    aluExt := BitVec.ofNat 16 (n / d)
    aluBuf := BitVec.ofNat 16 d
    addrHi := r.divisor
    addrLo := BitVec.ofNat 16 (n % d)
    counter := 0
    flags :=
      { zero := r.divisor == 0
        negative := r.divisor.msb
        extend := !quotientBit n d 0 }
    controlState := .signed .dvs15 }

/-- The last round, which leaves the remainder apart from the shift register. -/
theorem reaches_afterRounds (h : RoundHead signedHead r n d 1 s) (hd : 0 < d)
    (hhalf : d ≤ 0x8000) (hq : n / d < 0x10000) :
    Reaches s (signedLastLabels n d) (r.afterRounds n d) := by
  obtain ⟨s₂, l₂, h₂, hw₂⟩ := exists_signed_subtract h (by decide) hq
  have hquotient := h₂.shiftConcat_aluExt
  have hcarry := h₂.carry_eq hd (fits_of_le hd hhalf)
  have hextend := h₂.extend_eq hd (fits_of_le hd hhalf)
  have hbuf : s₂.aluBuf = BitVec.ofNat 16 d := by
    rw [← h₂.aluBuf, BitVec.ofNat_toNat, BitVec.setWidth_eq]
  have hcounter : s₂.counter = 0 := BitVec.eq_of_toNat_eq h₂.counter
  unfold signedLastLabels afterRounds
  cases hbit : quotientBit n d 0
  case true =>
    rw [hbit] at hquotient hcarry hextend
    refine .of_eq (l₂.append (.cons hw₂ rfl (.cons ?_ rfl (.cons rfl rfl (.nil _))))) ?_
    · simp [hcarry]
    · simp [hquotient, hextend, hbuf, hcounter, h₂.alu_eq hd hbit, h₂.dividendHi, h₂.dividendLo,
        h₂.divisor, h₂.addrHi, h₂.pcScratch]
  case false =>
    rw [hbit] at hquotient hcarry hextend
    refine .of_eq (l₂.append (.cons hw₂ rfl (.cons ?_ rfl (.cons rfl rfl (.nil _))))) ?_
    · simp [hcarry]
    · simp [hquotient, hextend, hbuf, hcounter, h₂.addrLo_eq_of_not hd hbit, h₂.dividendHi,
        h₂.dividendLo, h₂.divisor, h₂.addrHi, h₂.pcScratch]

end

/-! ## All ways -/

theorem dvuma_notMem_signedRoundLabels (n d c : Nat) :
    .exit .dvuma ∉ signedRoundLabels n d c := by
  unfold signedRoundLabels
  split_ifs <;> simp [signedHead]

theorem dvuma_notMem_signedSetupLabels (x y : Bool) :
    .exit .dvuma ∉ signedSetupLabels x y := by
  cases x <;> cases y <;> decide

theorem dvuma_notMem_signedTestLabels (dividend : Long) (divisor : Word) :
    .exit .dvuma ∉ signedTestLabels dividend divisor := by
  simp [signedTestLabels, signedLastLabels, signedHead, dvuma_notMem_signedSetupLabels,
    notMem_loopLabels (dvuma_notMem_signedRoundLabels _ _), dvuma_notMem_signsLabels]

theorem reaches_test (hd : r.divisor ≠ 0)
    (hq : magnitude r.dividend / magnitude r.divisor < 0x10000) :
    Reaches (r.enter .divs) (signedTestLabels r.dividend r.divisor)
      (r.afterRounds (magnitude r.dividend) (magnitude r.divisor)).withSigns := by
  have hpos : 0 < magnitude r.divisor := (magnitude_pos_iff r.divisor).2 hd
  have hhalf := magnitude_le r.divisor
  obtain ⟨s₁, l₁, h₁⟩ := exists_signed_start hd hq
  obtain ⟨s₂, l₂, h₂⟩ := exists_loop (exists_signed_round hpos hhalf hq) (by decide) h₁
  obtain ⟨c, l₃⟩ := reaches_afterRounds h₂ hpos hhalf hq
  -- the signs are found from the operands, which the rounds have left in place
  have hrounds : Reaches (r.enter .divs) _ _ := ⟨c, (l₁.append l₂).append l₃⟩
  apply hrounds.append
  intro c
  rw [r.msb_dividend]
  exact reaches_signs rfl rfl

/-- Every signed division goes its way through the control store, to the result that the absolute
values and the signs give. -/
theorem exists_completes_divs (r : RegisterFile) :
    ∃ t, Completes r .divs (signedResult r.dividend r.divisor)
      (signedLabels r.dividend r.divisor) t := by
  unfold signedLabels signedResult
  by_cases hd : r.divisor = 0
  · obtain ⟨c, l⟩ := reaches_signed_trap hd
    simp only [hd, if_true]
    exact ⟨_, .of_unchanged l rfl rfl rfl rfl (by simp)⟩
  · simp only [hd, if_false]
    by_cases hq : 0x10000 ≤ magnitude r.dividend / magnitude r.divisor
    · obtain ⟨c, l⟩ := reaches_early_overflow hd hq
      simp only [hq, if_true]
      exact ⟨_, .of_unchanged l rfl rfl rfl rfl (by simp)⟩
    · have htest := reaches_test hd (Nat.not_le.1 hq)
      have hdvuma := dvuma_notMem_signedTestLabels r.dividend r.divisor
      let s := r.afterRounds (magnitude r.dividend) (magnitude r.divisor)
      have hshows : s.quotientShowsSign = showsSign (r.dividendHi.msb ^^ r.divisor.msb)
          (withSign (r.dividendHi.msb ^^ r.divisor.msb)
            (BitVec.ofNat 16 (magnitude r.dividend / magnitude r.divisor))) := rfl
      simp only [hq, if_false]
      rw [r.msb_dividend, ← hshows]
      cases hfits : s.quotientShowsSign
      case true =>
        obtain ⟨c, l⟩ := htest.append (reaches_writeBack hfits)
        exact ⟨_, l, rfl, rfl, rfl, rfl, by simp [hdvuma, dvuma_notMem_writeBackLabels]⟩
      case false =>
        obtain ⟨c, l⟩ := htest.append (reaches_lateOverflow hfits)
        exact ⟨_, .of_unchanged l rfl rfl rfl rfl (by simp [dvuma_mem_lateOverflowLabels])⟩

end DivisionMicrocode
