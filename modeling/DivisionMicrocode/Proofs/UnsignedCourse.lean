import DivisionMicrocode.Proofs.Completion
import DivisionMicrocode.Proofs.Round
/-!
# The course of an unsigned division

The three ways of an unsigned division through the control store, each with the labels that come up
and the registers that it ends with: a zero divisor, a quotient that needs more than one word, and
a quotient found in sixteen rounds. The labels depend on the operands only.
-/

namespace DivisionMicrocode

open ControlStore LongDivision RegisterFile

/-- The microword that starts a round and shifts in the quotient bit of the round before. -/
def unsignedHead (bit : Bool) : Microword := .unsigned (if bit then .dvum6 else .dvum5)

/-- Whether the shift of the round that finds the bit of weight `2 ^ c` loses a bit. -/
def losesBit (n d c : Nat) : Bool := decide (0x8000 ≤ partialRemainder n d (c + 1))

/-- The labels of the round that finds the bit of weight `2 ^ c`, for `c` other than zero. -/
def unsignedRoundLabels (n d c : Nat) : List Microword :=
  unsignedHead (quotientBit n d (c + 1)) ::
    .unsigned (if losesBit n d c then .dvum7 else .dvum8) ::
      if losesBit n d c then []
      else .unsigned .dvumb :: if quotientBit n d c then [] else [.unsigned .dvume]

/-- The labels of the last round and of the write-back. -/
def unsignedFinishLabels (n d : Nat) : List Microword :=
  unsignedHead (quotientBit n d 1) ::
    .unsigned (if losesBit n d 0 then .dvum7 else .dvum8) ::
      [.unsigned (if losesBit n d 0 then .dvum9 else .dvumc),
        .unsigned (if quotientBit n d 0 then .dvumd else .dvumf), .unsigned .dvum0]

/-- The labels of the division of `n` by `d`. -/
def unsignedLabels (n d : Nat) : List Microword :=
  [.unsigned .dvur1, .unsigned .dvum2] ++
    if d = 0 then []
    else
      .unsigned .dvum3 ::
        if 0x10000 ≤ n / d then [.exit .dvum4, .exit .dvuma]
        else loopLabels (unsignedRoundLabels n d) 15 ++ unsignedFinishLabels n d

variable {r s : RegisterFile} {n d c : Nat}

/-! ## A round -/

/-- Where the shift loses a bit the divisor fits. -/
theorem quotientBit_of_losesBit (hd : 0 < d) (hword : d < 0x10000)
    (hlost : losesBit n d c = true) : quotientBit n d c = true := by
  have hle : 0x8000 ≤ partialRemainder n d (c + 1) := of_decide_eq_true hlost
  rw [quotientBit_eq_decide hd, decide_eq_true_iff]
  omega

theorem fits_of_not_losesBit (hlost : losesBit n d c = false) :
    2 * partialRemainder n d (c + 1) + n / 2 ^ c % 2 < 0x10000 := by
  have hlt : ¬0x8000 ≤ partialRemainder n d (c + 1) := of_decide_eq_false hlost
  omega

theorem msb_alu_eq_losesBit (h : RoundStart r n d (c + 1) s) : s.alu.msb = losesBit n d c := by
  rw [BitVec.msb_eq_decide, h.alu]
  rfl

/-- A round shifts and subtracts, and has seen by then whether the shift loses a bit. -/
theorem exists_unsigned_subtract (h : RoundHead unsignedHead r n d (c + 1) s) (hc : c < 16)
    (hq : n / d < 0x10000) :
    ∃ t, Leads s [unsignedHead (quotientBit n d (c + 1)),
        .unsigned (if losesBit n d c then .dvum7 else .dvum8)] t ∧ RoundSubtracted r n d c t ∧
      t.controlState = .unsigned (if losesBit n d c then if c = 0 then .dvum9 else .dvum6
        else if c = 0 then .dvumc else .dvumb) := by
  let next : Branch := .test .negative (.goto (.unsigned .dvum7)) (.goto (.unsigned .dvum8))
  have hfetch : fetch (unsignedHead (quotientBit n d (c + 1))) =
      some (shiftRound (quotientBit n d (c + 1)) next) := by
    cases quotientBit n d (c + 1) <;> rfl
  have h₁ := h.shift hc hq next
  have hw₁ := s.controlState_pass_test (i := shiftRound (quotientBit n d (c + 1)) next) rfl
  simp only [Condition.holds, h.negative, msb_alu_eq_losesBit h.toRoundStart] at hw₁
  cases hlost : losesBit n d c
  case true =>
    rw [hlost] at hw₁
    refine ⟨_, .cons h.controlState hfetch (.cons hw₁ rfl (.nil _)), h₁.subtract _ _, ?_⟩
    apply (h₁.controlState_subtract (.unsigned .dvum6) (.unsigned .dvum9)).trans
    split <;> rfl
  case false =>
    rw [hlost] at hw₁
    refine ⟨_, .cons h.controlState hfetch (.cons hw₁ rfl (.nil _)), h₁.subtract _ _, ?_⟩
    apply (h₁.controlState_subtract (.unsigned .dvumb) (.unsigned .dvumc)).trans
    split <;> rfl

theorem exists_unsigned_round (hd : 0 < d) (hword : d < 0x10000) (hq : n / d < 0x10000) (c : Nat)
    (s : RegisterFile) (hpos : 0 < c) (hc : c < 16) (h : RoundHead unsignedHead r n d (c + 1) s) :
    ∃ t, Leads s (unsignedRoundLabels n d c) t ∧ RoundHead unsignedHead r n d c t := by
  obtain ⟨s₂, l₂, h₂, hw₂⟩ := exists_unsigned_subtract h hc hq
  simp only [if_neg hpos.ne'] at hw₂
  unfold unsignedRoundLabels
  cases hlost : losesBit n d c
  case true =>
    -- the divisor fits, so the difference stays without being looked at
    rw [hlost] at l₂ hw₂
    have hbit := quotientBit_of_losesBit hd hword hlost
    refine ⟨s₂, l₂, h₂.keep hd hbit, ?_⟩
    rw [hbit]
    exact hw₂
  case false =>
    rw [hlost] at l₂ hw₂
    obtain ⟨t, l₃, h₃⟩ := h₂.exists_look unsignedHead hd (fits_of_not_losesBit hlost) hw₂ rfl rfl
    exact ⟨t, l₂.append l₃, h₃⟩

/-! ## The straight lines before and after the rounds -/

section

attribute [local simp] RegisterFile.pass perform issue? issue afterMove afterAlu afterAddress
  AluOp.map operand RegisterFile.read write Branch.target Condition.holds enter unsigned distribute
  probe loopCount Flags.logical Flags.subtraction_zero Flags.carry_subtraction
  Flags.extend_subtraction

theorem reaches_unsigned_trap (hd : r.divisor = 0) :
    Reaches (r.enter .divu) [.unsigned .dvur1, .unsigned .dvum2]
      { r with
        pcScratch := r.counter
        alu := r.dividendHi
        aluExt := r.dividendLo
        aluBuf := 0
        addrHi := 0
        flags := { zero := r.dividendHi == 0, negative := r.dividendHi.msb }
        controlState := .exit .trap0 } := by
  refine .of_eq (.cons rfl rfl (.cons rfl rfl (.nil _))) ?_
  simp [hd]

/-- An upper word that the divisor fits into leads to the overflow. -/
theorem reaches_unsigned_overflow (hd : r.divisor ≠ 0)
    (hhi : r.divisor.toNat ≤ r.dividendHi.toNat) :
    Reaches (r.enter .divu) [.unsigned .dvur1, .unsigned .dvum2, .unsigned .dvum3, .exit .dvum4,
        .exit .dvuma]
      { r with
        pcScratch := r.counter
        alu := r.dividendHi
        aluExt := r.dividendLo
        aluBuf := r.divisor
        addrHi := r.divisor
        addrLo := r.dividendHi
        counter := loopCount
        flags := { negative := r.dividendHi.msb }
        controlState := .exit .a1 } := by
  have hzero : r.dividendHi ≠ 0#16 := by
    have hpos := (toNat_pos_iff r.divisor).2 hd
    exact (toNat_pos_iff r.dividendHi).1 (by omega)
  refine .of_eq (.cons rfl rfl (.cons rfl rfl (.cons ?_ rfl (.cons ?_ rfl
    (.cons rfl rfl (.nil _)))))) ?_
  · simpa using hd
  · simp [Nat.not_lt.2 hhi]
  · simp [Nat.not_lt.2 hhi, hzero]

theorem exists_unsigned_setup (hd : r.divisor ≠ 0)
    (hq : r.dividend.toNat / r.divisor.toNat < 0x10000) :
    ∃ t, Leads (r.enter .divu) [.unsigned .dvur1, .unsigned .dvum2, .unsigned .dvum3] t ∧
      RoundHead unsignedHead r r.dividend.toNat r.divisor.toNat 16 t := by
  have hpos := (toNat_pos_iff r.divisor).2 hd
  have hhi : r.dividendHi.toNat < r.divisor.toNat := by
    rw [RegisterFile.toNat_dividendHi]
    exact (quotient_lt_iff hpos).1 hq
  let t : RegisterFile := { r with
    pcScratch := r.counter
    alu := r.dividendHi
    aluExt := r.dividendLo
    aluBuf := r.divisor
    addrHi := r.divisor
    addrLo := r.dividendHi
    counter := loopCount
    flags := { zero := r.dividendHi == 0, negative := r.dividendHi.msb, extend := true }
    controlState := .unsigned .dvum5
    cycles := r.cycles + clocksPerMicroword + clocksPerMicroword + clocksPerMicroword }
  have ht : (((r.enter .divu).pass (unsigned .dvur1)).pass (unsigned .dvum2)).pass
      (unsigned .dvum3) = t := by
    simp [t, hhi]
  refine ⟨t, .cons rfl rfl (.cons rfl rfl (.cons ?_ rfl (ht ▸ .nil _))), ?_⟩
  · simpa using hd
  · refine ⟨⟨⟨rfl, rfl, rfl, rfl, rfl⟩, rfl, ?_, ?_, rfl, rfl⟩, ?_⟩
    · rw [partialRemainder_sixteen hpos hq, ← r.toNat_dividendHi]
    · rw [shiftRegister_sixteen hq, ← r.toNat_dividendLo]
    · rw [quotientBit_sixteen hq]
      rfl

/-- The registers after the write-back of a division of `n` by `d`. -/
def RegisterFile.withUnsignedResult (r : RegisterFile) (n d : Nat) : RegisterFile :=
  { r with
    dividendHi := BitVec.ofNat 16 (n % d)
    dividendLo := BitVec.ofNat 16 (n / d)
    pcScratch := r.counter
    alu := BitVec.ofNat 16 (n / d)
    aluExt := BitVec.ofNat 16 (n / d)
    aluBuf := 0
    addrHi := r.divisor
    addrLo := BitVec.ofNat 16 (n % d + d * (n / d % 2))
    counter := r.counter + 2
    flags := { zero := BitVec.ofNat 16 (n / d) == 0, negative := (BitVec.ofNat 16 (n / d)).msb }
    controlState := .exit .a1 }

/-- The last round, the repair of the remainder where the divisor does not fit, and the
write-back. -/
theorem reaches_unsigned_finish (h : RoundHead unsignedHead r n d 1 s) (hd : 0 < d)
    (hword : d < 0x10000) (hq : n / d < 0x10000) :
    Reaches s (unsignedFinishLabels n d) (r.withUnsignedResult n d) := by
  obtain ⟨s₂, l₂, h₂, hw₂⟩ := exists_unsigned_subtract h (by decide) hq
  have hquotient := h₂.shiftConcat_aluExt
  have haddr := h₂.addrLo_eq
  unfold unsignedFinishLabels withUnsignedResult
  cases hlost : losesBit n d 0
  case true =>
    -- the remainder is written back without a look at the borrow
    have hbit := quotientBit_of_losesBit hd hword hlost
    rw [hlost] at l₂ hw₂
    rw [hbit] at hquotient ⊢
    refine .of_eq (l₂.append (.cons hw₂ rfl (.cons rfl rfl (.cons rfl rfl (.nil _))))) ?_
    simp [hquotient, haddr, h₂.alu_eq hd hbit, h₂.divisor, h₂.addrHi, h₂.pcScratch]
  case false =>
    rw [hlost] at l₂ hw₂
    have hcarry := h₂.carry_eq hd (fits_of_not_losesBit hlost)
    cases hbit : quotientBit n d 0
    case true =>
      rw [hbit] at hquotient hcarry
      refine .of_eq (l₂.append (.cons hw₂ rfl (.cons ?_ rfl (.cons rfl rfl (.nil _))))) ?_
      · simp [hcarry]
      · simp [hquotient, haddr, h₂.alu_eq hd hbit, h₂.divisor, h₂.addrHi, h₂.pcScratch]
    case false =>
      -- the remainder written back first is wrong by the divisor and is written once more
      rw [hbit] at hquotient hcarry
      have hrem := h₂.addrLo_eq_of_not hd hbit
      rw [hrem] at haddr
      refine .of_eq (l₂.append (.cons hw₂ rfl (.cons ?_ rfl (.cons rfl rfl (.nil _))))) ?_
      · simp [hcarry]
      · simp [hquotient, hrem, ← haddr, h₂.divisor, h₂.addrHi, h₂.pcScratch]

end

/-- A quotient that fits a word is found and written back. -/
theorem reaches_unsigned_result (hd : r.divisor ≠ 0)
    (hq : r.dividend.toNat / r.divisor.toNat < 0x10000) :
    Reaches (r.enter .divu) (unsignedLabels r.dividend.toNat r.divisor.toNat)
      (r.withUnsignedResult r.dividend.toNat r.divisor.toNat) := by
  have hpos := (toNat_pos_iff r.divisor).2 hd
  obtain ⟨s₁, l₁, h₁⟩ := exists_unsigned_setup hd hq
  obtain ⟨s₂, l₂, h₂⟩ := exists_loop (exists_unsigned_round hpos r.divisor.isLt hq) (by decide) h₁
  obtain ⟨c, l₃⟩ := reaches_unsigned_finish h₂ hpos r.divisor.isLt hq
  rw [unsignedLabels, if_neg hpos.ne', if_neg (Nat.not_le.2 hq)]
  exact ⟨c, l₁.append (l₂.append l₃)⟩

/-! ## All ways -/

theorem dvuma_notMem_unsignedRoundLabels (n d c : Nat) :
    .exit .dvuma ∉ unsignedRoundLabels n d c := by
  unfold unsignedRoundLabels
  split_ifs <;> simp [unsignedHead]

/-- Every unsigned division goes its way through the control store, to the result that natural
division gives. -/
theorem exists_completes_divu (r : RegisterFile) :
    ∃ t, Completes r .divu (unsignedResult r.dividend r.divisor)
      (unsignedLabels r.dividend.toNat r.divisor.toNat) t := by
  unfold unsignedResult
  by_cases hd : r.divisor = 0
  · obtain ⟨c, l⟩ := reaches_unsigned_trap hd
    simp only [unsignedLabels, hd, if_true]
    exact ⟨_, .of_unchanged l rfl rfl rfl rfl (by simp)⟩
  · have hpos := (toNat_pos_iff r.divisor).2 hd
    by_cases hq : 0x10000 ≤ r.dividend.toNat / r.divisor.toNat
    · have hhi : r.divisor.toNat ≤ r.dividendHi.toNat := by
        rw [RegisterFile.toNat_dividendHi, ← Nat.not_lt, ← quotient_lt_iff hpos, Nat.not_lt]
        exact hq
      obtain ⟨c, l⟩ := reaches_unsigned_overflow hd hhi
      simp only [unsignedLabels, hd, hpos.ne', hq, if_true, if_false]
      exact ⟨_, .of_unchanged l rfl rfl rfl rfl (by simp)⟩
    · obtain ⟨c, l⟩ := reaches_unsigned_result hd (Nat.not_le.1 hq)
      simp only [hd, hq, if_false]
      refine ⟨_, l, rfl, rfl, rfl, rfl, ?_⟩
      simp [unsignedLabels, hpos.ne', hq,
        notMem_loopLabels (dvuma_notMem_unsignedRoundLabels _ _), unsignedFinishLabels,
        unsignedHead]

end DivisionMicrocode
