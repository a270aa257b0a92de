import DivisionMicrocode.Proofs.MagnitudeDivision
import Mathlib.Algebra.BigOperators.Intervals
/-!
# The timing of the unsigned division in closed form

A round has four labels at most. It saves one if it finds a one for the quotient, as nothing has to
be undone, and another if its shift loses a bit, as nothing has to be looked at
(`length_unsignedRoundLabels`). The fifteen rounds before the last one find the bits of the
quotient above the lowest, so a division that completes normally takes 136 clocks less two for each
of these bits that is set and two for each bit lost.
-/

namespace DivisionMicrocode

open Finset LongDivision

/-- The ones of a quotient above its lowest bit. -/
def upperOnes (q : Nat) : Nat := #{c ∈ Icc 1 15 | q.testBit c}

/-- The rounds before the last whose shift loses a bit, counted from the first. -/
def lostBits (n d : Nat) : Nat := #{k ∈ range 15 | 0x8000 ≤ (n >>> (16 - k)) % d}

variable {r s : RegisterFile} {n d c q : Nat}

/-! ## Rounds -/

theorem length_unsignedRoundLabels (hd : 0 < d) (hword : d < 0x10000) :
    (unsignedRoundLabels n d c).length + (quotientBit n d c).toNat + (losesBit n d c).toNat =
      4 := by
  rw [unsignedRoundLabels]
  cases hlost : losesBit n d c
  case true =>
    rw [quotientBit_of_losesBit hd hword hlost]
    rfl
  case false => cases quotientBit n d c <;> rfl

theorem length_loopLabels (hd : 0 < d) (hword : d < 0x10000) (k : Nat) :
    (loopLabels (unsignedRoundLabels n d) k).length + ∑ c ∈ Icc 1 k, (quotientBit n d c).toNat +
      ∑ c ∈ Icc 1 k, (losesBit n d c).toNat = 4 * k := by
  induction k with
  | zero => rfl
  | succ k ih =>
    have hround := length_unsignedRoundLabels (n := n) (c := k + 1) hd hword
    rw [loopLabels, List.length_append, sum_Icc_succ_top (by omega), sum_Icc_succ_top (by omega)]
    omega

/-! ## Counts of rounds -/

theorem card_filter_eq_sum_toNat (s : Finset Nat) (f : Nat → Bool) :
    #{c ∈ s | f c} = ∑ c ∈ s, (f c).toNat := by
  rw [card_filter]
  refine sum_congr rfl fun c _ => ?_
  cases f c <;> rfl

theorem upperOnes_eq_sum (n d : Nat) :
    upperOnes (n / d) = ∑ c ∈ Icc 1 15, (quotientBit n d c).toNat := by
  exact card_filter_eq_sum_toNat (Icc 1 15) (quotientBit n d)

/-- The round `k`, counted from the first, is the one that finds the bit of weight
`2 ^ (15 - k)`. -/
theorem losesBit_eq_decide {k : Nat} (hk : k < 15) :
    losesBit n d (15 - k) = decide (0x8000 ≤ (n >>> (16 - k)) % d) := by
  rw [losesBit, partialRemainder, Nat.shiftRight_eq_div_pow, show 15 - k + 1 = 16 - k by omega]

theorem lostBits_eq_sum (n d : Nat) :
    lostBits n d = ∑ c ∈ Icc 1 15, (losesBit n d c).toNat := by
  calc lostBits n d = #{k ∈ range 15 | losesBit n d (15 - k)} := by
        refine congrArg card (filter_congr fun k hk => ?_)
        rw [losesBit_eq_decide (mem_range.1 hk), decide_eq_true_iff]
    _ = ∑ k ∈ range 15, (losesBit n d (15 - k)).toNat :=
        card_filter_eq_sum_toNat (range 15) fun k => losesBit n d (15 - k)
    _ = ∑ c ∈ Icc 1 15, (losesBit n d c).toNat := by
        refine sum_nbij' (15 - ·) (15 - ·) ?_ ?_ ?_ ?_ fun _ _ => rfl
        all_goals
          simp only [mem_range, mem_Icc]
          intro c hc
          omega

theorem upperOnes_le (q : Nat) : upperOnes q ≤ 15 := by
  exact card_filter_le (Icc 1 15) _

theorem lostBits_le (n d : Nat) : lostBits n d ≤ 15 := by
  exact card_filter_le (range 15) _

theorem lostBits_of_le (hd : 0 < d) (hhalf : d ≤ 0x8000) : lostBits n d = 0 := by
  rw [lostBits_eq_sum]
  refine sum_eq_zero fun c _ => ?_
  rw [losesBit_of_le hd hhalf]
  rfl

/-! ## The division -/

theorem unsignedClocks_add_eq {dividend : Long} {divisor : Word} (hd : divisor ≠ 0)
    (hq : dividend.toNat / divisor.toNat < 0x10000) :
    unsignedClocks dividend divisor + 2 * upperOnes (dividend.toNat / divisor.toNat) +
      2 * lostBits dividend.toNat divisor.toNat = 136 := by
  have hpos := (toNat_pos_iff divisor).2 hd
  have hloop := length_loopLabels (n := dividend.toNat) hpos divisor.isLt 15
  rw [← upperOnes_eq_sum, ← lostBits_eq_sum] at hloop
  rw [unsignedClocks_eq, unsignedLabels, if_neg hpos.ne', if_neg (Nat.not_le.2 hq)]
  simp only [unsignedFinishLabels, List.length_append, List.length_cons, List.length_nil]
  omega

theorem result_divide_divu_normal_iff (hcounted : (r.divide .divu).Counted) :
    (r.divide .divu).result = .ok .normal ↔
      r.divisor ≠ 0 ∧ r.dividend.toNat / r.divisor.toNat < 0x10000 := by
  have hyields : (r.divide .divu).Yields (unsignedResult r.dividend r.divisor) :=
    yields_divide hcounted
  rw [hyields.result, Except.ok.injEq, outcome_unsignedResult]
  split_ifs with hd hq
  · exact iff_of_false nofun fun h => h.1 hd
  · exact iff_of_false nofun fun h => Nat.not_le.2 h.2 hq
  · exact iff_of_true rfl ⟨hd, Nat.not_le.1 hq⟩

/-- The clocks of an unsigned division whose quotient fits a word, from the bits of the quotient
and the bits lost. They are even and between 76 and 136, and a divisor of up to half of the range
leaves them to the quotient. The divisions that complete normally are those, and take as long. -/
theorem divide_divu_clocks (r : RegisterFile) :
    let n := r.dividend.toNat
    let d := r.divisor.toNat
    let q := n / d
    let clocks := unsignedClocks r.dividend r.divisor
    (r.divisor ≠ 0 → q < 0x10000 →
      clocks = 136 - 2 * upperOnes q - 2 * lostBits n d ∧
        Even clocks ∧ 76 ≤ clocks ∧ clocks ≤ 136 ∧
        (d ≤ 0x8000 → ∀ s : RegisterFile, s.divisor ≠ 0 → s.divisor.toNat ≤ 0x8000 →
          s.dividend.toNat / s.divisor.toNat = q →
          unsignedClocks s.dividend s.divisor = clocks)) ∧
      ((r.divide .divu).Counted →
        ((r.divide .divu).result = .ok .normal ↔ r.divisor ≠ 0 ∧ q < 0x10000) ∧
          (r.divide .divu).final.cycles.toNat = r.cycles.toNat + clocks) := by
  intro n d q clocks
  refine ⟨fun hd hq => ?_, fun hcounted => ?_⟩
  · have hsum : clocks + 2 * upperOnes q + 2 * lostBits n d = 136 := unsignedClocks_add_eq hd hq
    have hones := upperOnes_le q
    have hlost := lostBits_le n d
    refine ⟨by omega, ?_, by omega, by omega, fun hhalf s hd' hhalf' hquotient => ?_⟩
    · exact ⟨68 - upperOnes q - lostBits n d, by omega⟩
    · -- neither division loses a bit
      have hnone : lostBits n d = 0 := lostBits_of_le ((toNat_pos_iff r.divisor).2 hd) hhalf
      have hnone' : lostBits s.dividend.toNat s.divisor.toNat = 0 :=
        lostBits_of_le ((toNat_pos_iff s.divisor).2 hd') hhalf'
      have hsum' := unsignedClocks_add_eq hd' (hquotient.trans_lt hq)
      rw [hquotient] at hsum'
      omega
  · exact ⟨result_divide_divu_normal_iff hcounted, toNat_cycles_divide hcounted⟩

/-- The shortest division, which loses every bit, the longest, which finds no one, and two of the
same quotient, which take the same time. -/
theorem divide_divu_clocks_bounds :
    let shortest := staleRegisters 0xFFFE0001 0xFFFF 7
    let longest := staleRegisters 0 0xFFFF 7
    let r := staleRegisters 0x29AAB 0x8000 7
    let s := staleRegisters 0x10 3 7
    (shortest.divide .divu).final.cycles.toNat = 7 + 76 ∧
      (longest.divide .divu).final.cycles.toNat = 7 + 136 ∧
      (r.divide .divu).result = .ok .normal ∧
      (r.divide .divu).final.cycles.toNat = 7 + 134 ∧
      unsignedClocks s.dividend s.divisor = unsignedClocks r.dividend r.divisor := by
  intro shortest longest r s
  have hshortest : (shortest.divide .divu).Counted := counted_divide_iff.2 (by decide +kernel)
  have hlongest : (longest.divide .divu).Counted := counted_divide_iff.2 (by decide +kernel)
  have hcounted : (r.divide .divu).Counted := counted_divide_iff.2 (by decide +kernel)
  have hd : r.divisor ≠ 0 := by decide
  have hq : r.dividend.toNat / r.divisor.toNat < 0x10000 := by decide +kernel
  obtain ⟨hleast, hcost⟩ := divide_divu_clocks shortest
  obtain ⟨hgreatest, hcost'⟩ := divide_divu_clocks longest
  obtain ⟨hclocks, hruns⟩ := divide_divu_clocks r
  obtain ⟨hformula, -, -, -, hsame⟩ := hclocks hd hq
  obtain ⟨hformula', -⟩ := hleast (by decide) (by decide +kernel)
  obtain ⟨hformula'', -⟩ := hgreatest (by decide) (by decide +kernel)
  refine ⟨?_, ?_, (hruns hcounted).1.2 ⟨hd, hq⟩, ?_, ?_⟩
  · rw [(hcost hshortest).2, hformula']
    decide +kernel
  · rw [(hcost' hlongest).2, hformula'']
    decide +kernel
  · rw [(hruns hcounted).2, hformula]
    decide +kernel
  · exact hsame (by decide) s (by decide) (by decide) (by decide +kernel)

end DivisionMicrocode
