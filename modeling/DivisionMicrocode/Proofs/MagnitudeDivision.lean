import DivisionMicrocode.Proofs.TruncatedDivision
/-!
# Signed division against unsigned division of the magnitudes

The two divisions have loops of their own. On the absolute values of the operands of a signed
division the unsigned loop loses no bit, so it goes through the counterparts of the signed rounds
(`loopLabels_signedRoundLabels`), and the clocks of the two divisions differ by what the signs ask
for only.
-/

namespace DivisionMicrocode

open LongDivision

variable {dividend : Long} {divisor : Word} {n d c : Nat} {r s : RegisterFile}

/-! ## The rounds -/

/-- The microword of a signed round that does what the given one does in an unsigned round. -/
def signedCounterpart : Microword → Microword
  | .unsigned .dvum5 => .signed .dvs09
  | .unsigned .dvum6 => .signed .dvs0a
  | .unsigned .dvum8 => .signed .dvs0c
  | .unsigned .dvumb => .signed .dvs0d
  | .unsigned .dvume => .signed .dvs0f
  | w => w

theorem losesBit_of_le (hd : 0 < d) (hhalf : d ≤ 0x8000) : losesBit n d c = false := by
  -- twice a remainder below the divisor is a word, as the divisor is at most half of the range
  have hlt : partialRemainder n d (c + 1) < d := partialRemainder_lt hd
  apply decide_eq_false
  omega

theorem signedRoundLabels_eq (hd : 0 < d) (hhalf : d ≤ 0x8000) :
    signedRoundLabels n d c = (unsignedRoundLabels n d c).map signedCounterpart := by
  rw [signedRoundLabels, unsignedRoundLabels, losesBit_of_le hd hhalf]
  cases quotientBit n d (c + 1) <;> cases quotientBit n d c <;> rfl

/-- The two loops go the same way, round by round. -/
theorem loopLabels_signedRoundLabels (hd : 0 < d) (hhalf : d ≤ 0x8000) (k : Nat) :
    loopLabels (signedRoundLabels n d) k =
      (loopLabels (unsignedRoundLabels n d) k).map signedCounterpart := by
  induction k with
  | zero => rfl
  | succ k ih => rw [loopLabels, loopLabels, List.map_append, signedRoundLabels_eq hd hhalf, ih]

/-! ## The clocks -/

/-- The clocks that the signs of the operands cost. -/
def signClocks (negativeDividend negativeDivisor : Bool) : Nat :=
  match negativeDividend, negativeDivisor with
  | false, false => 14
  | true, false => 20
  | false, true => 16
  | true, true => 18

theorem divisor_abs_ne_zero (hd : divisor ≠ 0) : divisor.abs ≠ 0 := by
  apply (toNat_pos_iff divisor.abs).1
  exact (magnitude_pos_iff divisor).2 hd

/-- The rounds of the two divisions take the same time, although they look at different bits. -/
theorem signedRounds_eq_unsignedRounds (hd : divisor ≠ 0)
    (hq : magnitude dividend / magnitude divisor < 0x10000) :
    signedRounds (aligned divisor.abs) 15 dividend.abs =
      unsignedRounds (aligned divisor.abs) 15 dividend.abs := by
  have hpos := (magnitude_pos_iff divisor).2 hd
  have hhalf := magnitude_le divisor
  -- both count the labels of sixteen rounds, for the same numbers
  have ha : dividend.abs.toNat = remainderWord (magnitude dividend) (magnitude divisor) 16 :=
    (remainderWord_sixteen hpos hq).symm
  have haligned := toNat_aligned divisor.abs
  rw [signedRounds_eq ha haligned (by decide) hpos hhalf,
    unsignedRounds_eq ha haligned (by decide) hpos, loopLabels_signedRoundLabels hpos hhalf,
    List.length_map]

theorem signedClocks_of_le (hd : divisor ≠ 0)
    (hq : 0x10000 ≤ magnitude dividend / magnitude divisor) :
    signedClocks dividend divisor = if dividend.msb then 18 else 16 := by
  simp only [signedClocks, hd, hq, if_true, if_false, signedSetupClocks]
  split <;> rfl

theorem unsignedClocks_abs_of_le (hd : divisor ≠ 0)
    (hq : 0x10000 ≤ magnitude dividend / magnitude divisor) :
    unsignedClocks dividend.abs divisor.abs = 10 := by
  have hq' : 0x10000 ≤ dividend.abs.toNat / divisor.abs.toNat := hq
  rw [unsignedClocks, if_neg (divisor_abs_ne_zero hd), if_pos hq']

/-- What the data decides costs both divisions the same, and the signs cost a constant. -/
theorem signedClocks_of_lt (hd : divisor ≠ 0)
    (hq : magnitude dividend / magnitude divisor < 0x10000) :
    signedClocks dividend divisor =
      unsignedClocks dividend.abs divisor.abs + signClocks dividend.msb divisor.msb := by
  have hrounds := signedRounds_eq_unsignedRounds hd hq
  have hunsigned : unsignedClocks dividend.abs divisor.abs =
      6 + unsignedRounds (aligned divisor.abs) 15 dividend.abs + 10 := by
    have hq' : ¬0x10000 ≤ dividend.abs.toNat / divisor.abs.toNat := Nat.not_le.2 hq
    rw [unsignedClocks, if_neg (divisor_abs_ne_zero hd), if_neg hq']
  have hsigns : signedSetupClocks dividend + signedFixupClocks dividend divisor =
      6 + signClocks dividend.msb divisor.msb := by
    unfold signedSetupClocks signedFixupClocks
    cases dividend.msb <;> cases divisor.msb <;> rfl
  rw [signedClocks, if_neg hd, if_neg (Nat.not_le.2 hq), ofNat_magnitude, ofNat_magnitude, hrounds,
    hunsigned]
  omega

/-! ## The results -/

/-- Whether a quotient with a sign fits can be told from the quotient of the magnitudes. -/
theorem showsSign_withSign_iff (negative : Bool) (q : Word) :
    showsSign negative (withSign negative q) = true ↔
      q.toNat ≤ 0x7FFF ∨ q.toNat = 0x8000 ∧ negative = true := by
  have hq : BitVec.ofNat 16 q.toNat = q := by rw [BitVec.ofNat_toNat, BitVec.setWidth_eq]
  have hshows : showsSign negative (withSign negative (BitVec.ofNat 16 q.toNat)) = true ↔ _ :=
    showsSign_iff q.isLt
  rw [hq] at hshows
  rw [hshows, FitsWord, signedValue]
  cases negative
  case false =>
    simp only [Bool.false_eq_true, if_false, and_false, or_false]
    omega
  case true =>
    simp only [if_true, and_true]
    omega

theorem unsignedResult_abs_of_le (hd : divisor ≠ 0)
    (hq : 0x10000 ≤ magnitude dividend / magnitude divisor) :
    (unsignedResult dividend.abs divisor.abs).outcome = .overflow := by
  have hq' : 0x10000 ≤ dividend.abs.toNat / divisor.abs.toNat := hq
  rw [unsignedResult_of_le (divisor_abs_ne_zero hd) hq']
  rfl

theorem signedResult_of_le (hd : divisor ≠ 0)
    (hq : 0x10000 ≤ magnitude dividend / magnitude divisor) :
    signedResult dividend divisor = .unchanged dividend .overflow := by
  rw [signedResult, if_neg hd, if_pos hq]

/-- The signed division gives its signs to the result of the unsigned one. -/
theorem signedResult_of_lt (hd : divisor ≠ 0)
    (hq : magnitude dividend / magnitude divisor < 0x10000) :
    let u := unsignedResult dividend.abs divisor.abs
    let negative := dividend.msb ^^ divisor.msb
    u.outcome = .normal ∧
      signedResult dividend divisor =
        if showsSign negative (withSign negative u.quotient) then
          { remainder := withSign dividend.msb u.remainder
            quotient := withSign negative u.quotient
            outcome := .normal }
        else .unchanged dividend .overflow := by
  intro u negative
  have hu : u = _ := unsignedResult_of_lt (divisor_abs_ne_zero hd) hq
  rw [hu, signedResult, if_neg hd, if_neg (Nat.not_le.2 hq)]
  exact ⟨rfl, rfl⟩

/-! ## The early overflow -/

/-- An overflow before any round has begun. -/
def Course.OverflowsEarly (c : Course) : Prop :=
  c.result = .ok .overflow ∧ ∀ bit, signedHead bit ∉ c.visited.map (·.controlState)

theorem signedHead_mem_signedTestLabels (dividend : Long) (divisor : Word) :
    ∃ bit, signedHead bit ∈ signedTestLabels dividend divisor := by
  refine ⟨quotientBit (magnitude dividend) (magnitude divisor) 1, ?_⟩
  simp [signedTestLabels, signedLastLabels]

theorem overflowsEarly_iff (hd : r.divisor ≠ 0) (hcounted : (r.divide .divs).Counted) :
    (r.divide .divs).OverflowsEarly ↔
      0x10000 ≤ magnitude r.dividend / magnitude r.divisor := by
  obtain ⟨t, h⟩ := exists_completes_divs r
  rw [Course.OverflowsEarly, h.map_controlState_visited hcounted, h.result_eq hcounted]
  by_cases hq : 0x10000 ≤ magnitude r.dividend / magnitude r.divisor
  · refine iff_of_true ⟨?_, ?_⟩ hq
    · rw [signedResult_of_le hd hq]
      rfl
    · intro bit
      rw [signedLabels, if_neg hd, if_pos hq]
      cases r.divisor.msb <;> cases r.dividend.msb <;> cases bit <;> decide
  · refine iff_of_false ?_ hq
    rintro ⟨-, hnone⟩
    obtain ⟨bit, hmem⟩ := signedHead_mem_signedTestLabels r.dividend r.divisor
    apply hnone bit
    rw [signedLabels, if_neg hd, if_neg hq]
    split <;> exact List.mem_append_left _ hmem

/-! ## The two divisions -/

/-- If the quotient of the magnitudes fits a word, the signed division yields the registers of the
unsigned one with their signs. -/
theorem yields_of_magnitudes (hcounted : (r.divide .divs).Counted)
    (hcounted' : (s.divide .divu).Counted) (hd : r.divisor ≠ 0)
    (hdividend : s.dividend = r.dividend.abs) (hdivisor : s.divisor = r.divisor.abs)
    (hq : magnitude r.dividend / magnitude r.divisor < 0x10000) :
    let t := (s.divide .divu).final
    let negative := r.dividend.msb ^^ r.divisor.msb
    (s.divide .divu).result = .ok .normal ∧
      (r.divide .divs).Yields
        (if showsSign negative (withSign negative t.dividendLo) then
          { remainder := withSign r.dividend.msb t.dividendHi
            quotient := withSign negative t.dividendLo
            outcome := .normal }
        else .unchanged r.dividend .overflow) := by
  intro t negative
  have hyields : (r.divide .divs).Yields (signedResult r.dividend r.divisor) :=
    yields_divide hcounted
  have hyields' : (s.divide .divu).Yields (unsignedResult s.dividend s.divisor) :=
    yields_divide hcounted'
  rw [hdividend, hdivisor] at hyields'
  obtain ⟨houtcome, hsigned⟩ := signedResult_of_lt hd hq
  have hquotient : t.dividendLo = _ := hyields'.quotient
  have hremainder : t.dividendHi = _ := hyields'.remainder
  rw [hsigned, ← hquotient, ← hremainder] at hyields
  refine ⟨?_, hyields⟩
  rw [hyields'.result, houtcome]

/-- The signed division then takes longer than the unsigned one by the clocks of the signs. -/
theorem cycles_of_magnitudes (hcounted : (r.divide .divs).Counted)
    (hcounted' : (s.divide .divu).Counted) (hd : r.divisor ≠ 0)
    (hdividend : s.dividend = r.dividend.abs) (hdivisor : s.divisor = r.divisor.abs)
    (hq : magnitude r.dividend / magnitude r.divisor < 0x10000) :
    ∃ clocks, (s.divide .divu).final.cycles.toNat = s.cycles.toNat + clocks ∧
      (r.divide .divs).final.cycles.toNat =
        r.cycles.toNat + clocks + signClocks r.dividend.msb r.divisor.msb := by
  refine ⟨unsignedClocks r.dividend.abs r.divisor.abs, ?_, ?_⟩
  · rw [toNat_cycles_divide hcounted', hdividend, hdivisor]
    rfl
  · rw [toNat_cycles_divide hcounted, Instruction.clocks, signedClocks_of_lt hd hq, Nat.add_assoc]

/-- A signed division and an unsigned division of the magnitudes agree. The unsigned one overflows
exactly if the signed one does so before its rounds. Otherwise the signed one gives its signs to
the quotient and the remainder, if the quotient can show its sign, and takes longer by what the
signs cost. -/
theorem divide_divs_of_magnitudes (hcounted : (r.divide .divs).Counted)
    (hcounted' : (s.divide .divu).Counted) (hd : r.divisor ≠ 0)
    (hdividend : s.dividend = r.dividend.abs) (hdivisor : s.divisor = r.divisor.abs) :
    let c := r.divide .divs
    let u := s.divide .divu
    let negative := r.dividend.msb ^^ r.divisor.msb
    (u.result = .ok .overflow ↔ c.OverflowsEarly) ∧
      (c.OverflowsEarly →
        c.final.cycles.toNat = r.cycles.toNat + (if r.dividend.msb then 18 else 16) ∧
          u.final.cycles.toNat = s.cycles.toNat + 10) ∧
      (u.result = .ok .normal ∨ u.result = .ok .overflow) ∧
      (u.result = .ok .normal →
        (c.result = .ok .normal ∨ c.result = .ok .overflow) ∧
          (c.result = .ok .normal ↔
            u.final.dividendLo.toNat ≤ 0x7FFF ∨
              u.final.dividendLo.toNat = 0x8000 ∧ r.dividend.msb ≠ r.divisor.msb) ∧
          (c.result = .ok .normal →
            c.final.dividendLo = withSign negative u.final.dividendLo ∧
              c.final.dividendHi = withSign r.dividend.msb u.final.dividendHi) ∧
          ∃ clocks, u.final.cycles.toNat = s.cycles.toNat + clocks ∧
            c.final.cycles.toNat =
              r.cycles.toNat + clocks + signClocks r.dividend.msb r.divisor.msb) := by
  intro c u negative
  have hearly := overflowsEarly_iff hd hcounted
  by_cases hq : 0x10000 ≤ magnitude r.dividend / magnitude r.divisor
  · have hyields' : u.Yields (unsignedResult s.dividend s.divisor) := yields_divide hcounted'
    have hclocks : c.final.cycles.toNat = _ := toNat_cycles_divide hcounted
    have hclocks' : u.final.cycles.toNat = _ := toNat_cycles_divide hcounted'
    rw [Instruction.clocks, signedClocks_of_le hd hq] at hclocks
    rw [Instruction.clocks, hdividend, hdivisor, unsignedClocks_abs_of_le hd hq] at hclocks'
    have hoverflow : u.result = .ok .overflow := by
      rw [hyields'.result, hdividend, hdivisor, unsignedResult_abs_of_le hd hq]
    have hne : u.result ≠ .ok .normal := by
      rw [hoverflow]
      decide
    exact ⟨iff_of_true hoverflow (hearly.2 hq), fun _ => ⟨hclocks, hclocks'⟩, .inr hoverflow,
      fun e => absurd e hne⟩
  · have hlt := Nat.not_le.1 hq
    have hcost := cycles_of_magnitudes hcounted hcounted' hd hdividend hdivisor hlt
    obtain ⟨hnormal, hyields⟩ :=
      yields_of_magnitudes hcounted hcounted' hd hdividend hdivisor hlt
    have hne : u.result ≠ .ok .overflow := by
      rw [hnormal]
      decide
    have hlate : ¬c.OverflowsEarly := fun he => hq (hearly.1 he)
    have hshows := showsSign_withSign_iff negative u.final.dividendLo
    rw [Bool.xor_iff_ne] at hshows
    refine ⟨iff_of_false hne hlate, fun he => absurd he hlate, .inl hnormal, fun _ => ?_⟩
    split at hyields
    case isTrue hfits =>
      exact ⟨.inl hyields.result, iff_of_true hyields.result (hshows.1 hfits),
        fun _ => ⟨hyields.quotient, hyields.remainder⟩, hcost⟩
    case isFalse hfits =>
      have hoverflow : c.result = .ok .overflow := hyields.result
      have hfailed : c.result ≠ .ok .normal := by
        rw [hoverflow]
        decide
      exact ⟨.inr hoverflow, iff_of_false hfailed (fun h => hfits (hshows.2 h)),
        fun e => absurd e hfailed, hcost⟩

/-- The quotient one above the greatest, which only operands of different signs can have. -/
theorem divide_divs_of_magnitudes_at_limit :
    let s := RegisterFile.ofOperands 0x3FFF8005 0x7FFF
    let below := staleRegisters 0xC0007FFB 0x7FFF 0
    let above := staleRegisters 0x3FFF8005 0x7FFF 0
    (s.divide .divu).Counted ∧ (s.divide .divu).result = .ok .normal ∧
      ((below.divide .divs).Counted ∧ s.dividend = below.dividend.abs ∧
        s.divisor = below.divisor.abs ∧ (below.divide .divs).result = .ok .normal ∧
        (below.divide .divs).final.dividendLo = 0x8000 ∧
        (below.divide .divs).final.dividendHi = -5 ∧
        (below.divide .divs).final.cycles.toNat = (s.divide .divu).final.cycles.toNat + 20) ∧
      (above.divide .divs).Counted ∧ s.dividend = above.dividend.abs ∧
        s.divisor = above.divisor.abs ∧ (above.divide .divs).result = .ok .overflow ∧
        (above.divide .divs).final.cycles.toNat = (s.divide .divu).final.cycles.toNat + 14 := by
  intro s below above
  have hcounted : (s.divide .divu).Counted := counted_divide_iff.2 (by decide +kernel)
  have hbelow : (below.divide .divs).Counted := counted_divide_iff.2 (by decide +kernel)
  have habove : (above.divide .divs).Counted := counted_divide_iff.2 (by decide +kernel)
  have hvalue : unsignedResult s.dividend s.divisor = ⟨5, 0x8000, .normal⟩ := by decide +kernel
  have hu : (s.divide .divu).Yields (unsignedResult s.dividend s.divisor) :=
    yields_divide hcounted
  rw [hvalue] at hu
  have hquotient : (s.divide .divu).final.dividendLo = 0x8000 := hu.quotient
  have hremainder : (s.divide .divu).final.dividendHi = 5 := hu.remainder
  have hd : below.divisor ≠ 0 := by decide
  have hdividend : s.dividend = below.dividend.abs := by decide
  have hdivisor : s.divisor = below.divisor.abs := by decide
  have hd' : above.divisor ≠ 0 := by decide
  have hdividend' : s.dividend = above.dividend.abs := by decide
  have hdivisor' : s.divisor = above.divisor.abs := by decide
  obtain ⟨-, -, -, hbelowNormal⟩ :=
    divide_divs_of_magnitudes hbelow hcounted hd hdividend hdivisor
  obtain ⟨-, -, -, haboveNormal⟩ :=
    divide_divs_of_magnitudes habove hcounted hd' hdividend' hdivisor'
  obtain ⟨-, hfits, hsigns, clocks, hclocks, hbelowClocks⟩ := hbelowNormal hu.result
  obtain ⟨hends, hfits', -, clocks', hclocks', haboveClocks⟩ := haboveNormal hu.result
  have hresult : (below.divide .divs).result = .ok .normal := by
    rw [hfits, hquotient]
    decide
  have hresult' : (above.divide .divs).result ≠ .ok .normal := by
    rw [ne_eq, hfits', hquotient]
    decide
  obtain ⟨hlo, hhi⟩ := hsigns hresult
  rw [hquotient] at hlo
  rw [hremainder] at hhi
  refine ⟨hcounted, hu.result,
    ⟨hbelow, hdividend, hdivisor, hresult, hlo.trans (by decide), hhi.trans (by decide), ?_⟩,
    habove, hdividend', hdivisor', hends.resolve_left hresult', ?_⟩
  · have hzero : below.cycles.toNat = s.cycles.toNat := rfl
    have hcost : signClocks below.dividend.msb below.divisor.msb = 20 := by decide
    omega
  · have hzero : above.cycles.toNat = s.cycles.toNat := rfl
    have hcost : signClocks above.dividend.msb above.divisor.msb = 14 := by decide
    omega

end DivisionMicrocode
