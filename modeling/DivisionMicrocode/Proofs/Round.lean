import DivisionMicrocode.Proofs.LongDivision
import DivisionMicrocode.Proofs.Path
import DivisionMicrocode.Proofs.WordArithmetic
/-!
# The rounds of a division

Both divisions shift, subtract and restore with the same microinstructions; only the labels that
they branch to differ. So what a round does to the registers is said here once, whatever comes next.

The invariant is `RoundStart r n d c s`: at the registers `s`, in a division that began with the
registers `r`, the counter has `c` rounds to go, and the shift register holds the partial remainder
of `n` by `d` above the word of pending bits and quotient bits. The quotient bit of weight `2 ^ c`
is in no register yet: whoever starts the next round shifts it in.
-/

namespace DivisionMicrocode

open ControlStore LongDivision

/-- The shift that starts a round. -/
def shiftRound (inject : Bool) (next : Branch) : Microinstruction where
  address := .countDown
  alu := some (.shiftLeft inject)
  branch := next

/-- The microinstruction that puts the former partial remainder back. -/
def restoreRound (next : Branch) : Microinstruction where
  alu := some (probe (.register .addrLo))
  branch := next

/-- The operands of a division that began with the registers `r`, and what it has put aside. -/
structure Holding (r s : RegisterFile) : Prop where
  dividendHi : s.dividendHi = r.dividendHi
  dividendLo : s.dividendLo = r.dividendLo
  divisor : s.divisor = r.divisor
  addrHi : s.addrHi = r.divisor
  pcScratch : s.pcScratch = r.counter

/-- Before a round. -/
structure RoundStart (r : RegisterFile) (n d c : Nat) (s : RegisterFile) : Prop
    extends Holding r s where
  counter : s.counter.toNat = c
  alu : s.alu.toNat = partialRemainder n d c
  aluExt : s.aluExt.toNat = shiftRegister n d c
  aluBuf : s.aluBuf.toNat = d
  negative : s.flags.negative = s.alu.msb

/-- Before a round that starts at one of the two microwords `head`: which of them it is says the
quotient bit of the round before. -/
structure RoundHead (head : Bool → Microword) (r : RegisterFile) (n d c : Nat) (s : RegisterFile) :
    Prop extends RoundStart r n d c s where
  controlState : s.controlState = head (quotientBit n d c)

/-- After the shift of a round; a bit may have left the shift register. -/
structure RoundShifted (r : RegisterFile) (n d c : Nat) (s : RegisterFile) : Prop
    extends Holding r s where
  counter : s.counter.toNat = c
  alu : s.alu.toNat = (2 * partialRemainder n d (c + 1) + n / 2 ^ c % 2) % 0x10000
  aluExt : s.aluExt.toNat = shiftRegister n d c
  aluBuf : s.aluBuf.toNat = d

/-- After the subtraction of a round, before it is known whether the divisor fits. -/
structure RoundSubtracted (r : RegisterFile) (n d c : Nat) (s : RegisterFile) : Prop
    extends Holding r s where
  counter : s.counter.toNat = c
  addrLo : s.addrLo.toNat = (2 * partialRemainder n d (c + 1) + n / 2 ^ c % 2) % 0x10000
  aluExt : s.aluExt.toNat = shiftRegister n d c
  aluBuf : s.aluBuf.toNat = d
  alu : s.alu = s.addrLo - s.aluBuf
  flags : s.flags = Flags.subtraction s.addrLo s.aluBuf s.alu

variable {r s : RegisterFile} {n d c : Nat}

/-! ## The rounds one after another -/

/-- The labels of the rounds that find the bits of weight `2 ^ k` down to `2 ^ 1`, where those of
the round for the bit of weight `2 ^ c` are `round c`. The last round is not among them. -/
def loopLabels (round : Nat → List Microword) : Nat → List Microword
  | 0 => []
  | k + 1 => round (k + 1) ++ loopLabels round k

theorem notMem_loopLabels {round : Nat → List Microword} {w : Microword}
    (hround : ∀ c, w ∉ round c) (k : Nat) : w ∉ loopLabels round k := by
  induction k with
  | zero => exact List.not_mem_nil
  | succ k ih =>
      rw [loopLabels, List.mem_append, not_or]
      exact ⟨hround (k + 1), ih⟩

/-- What holds before each round holds before the last one. -/
theorem exists_loop {start : Nat → RegisterFile → Prop} {round : Nat → List Microword}
    (hround : ∀ c s, 0 < c → c < 16 → start (c + 1) s → ∃ t, Leads s (round c) t ∧ start c t)
    {k : Nat} (hk : k < 16) (h : start (k + 1) s) :
    ∃ t, Leads s (loopLabels round k) t ∧ start 1 t := by
  induction k generalizing s with
  | zero => exact ⟨s, .nil s, h⟩
  | succ k ih =>
      obtain ⟨s₁, l₁, h₁⟩ := hround (k + 1) s (Nat.succ_pos k) hk h
      obtain ⟨t, l₂, h₂⟩ := ih (by omega) h₁
      exact ⟨t, l₁.append l₂, h₂⟩

/-! ## The microinstructions of a round -/

section

attribute [local simp] RegisterFile.pass RegisterFile.perform RegisterFile.issue? RegisterFile.issue
  RegisterFile.afterMove RegisterFile.afterAlu RegisterFile.afterAddress AluOp.map
  RegisterFile.operand RegisterFile.read RegisterFile.write Branch.target Condition.holds

theorem pass_shiftRound (s : RegisterFile) (inject : Bool) (next : Branch) :
    s.pass (shiftRound inject next) =
      { s with
        alu := s.alu.shiftConcat s.aluExt.msb
        aluExt := s.aluExt.shiftConcat inject
        counter := s.counter - 1
        controlState := next.target s.flags (s.counter - 1)
        cycles := s.cycles + clocksPerMicroword } := by
  simp [shiftRound]

theorem pass_subtractRound (s : RegisterFile) (rest done : Microword) :
    s.pass (subtractRound rest done) =
      { s with
        alu := s.alu - s.aluBuf
        addrLo := s.alu
        flags := Flags.subtraction s.alu s.aluBuf (s.alu - s.aluBuf)
        controlState := if s.counter = 0 then done else rest
        cycles := s.cycles + clocksPerMicroword } := by
  simp [subtractRound]

theorem pass_idle (s : RegisterFile) (next : Branch) :
    s.pass { branch := next } =
      { s with
        controlState := next.target s.flags s.counter
        cycles := s.cycles + clocksPerMicroword } := by
  simp

theorem pass_restoreRound (s : RegisterFile) (next : Branch) :
    s.pass (restoreRound next) =
      { s with
        alu := s.addrLo
        flags := s.flags.logical s.addrLo
        controlState := next.target s.flags s.counter
        cycles := s.cycles + clocksPerMicroword } := by
  simp [restoreRound, probe]

end

/-! ## What a round does to the partial remainder -/

theorem RoundStart.shift (h : RoundStart r n d (c + 1) s) (hc : c < 16) (hq : n / d < 0x10000)
    (next : Branch) :
    RoundShifted r n d c (s.pass (shiftRound (quotientBit n d (c + 1)) next)) := by
  have hstep := shiftRegister_step (n := n) (d := d) hc
  have hlt : shiftRegister n d c < 0x10000 := shiftRegister_lt (by omega) hq
  have hmsb : s.aluExt.msb.toNat = n / 2 ^ c % 2 := by
    have hbit := Bool.toNat_lt (quotientBit n d (c + 1))
    rw [toNat_msb, h.aluExt]
    omega
  rw [pass_shiftRound]
  refine ⟨⟨h.dividendHi, h.dividendLo, h.divisor, h.addrHi, h.pcScratch⟩, ?_, ?_, ?_, h.aluBuf⟩
  · have hpos : 0 < s.counter.toNat := h.counter ▸ Nat.succ_pos c
    exact Nat.succ.inj ((Long.toNat_sub_one hpos).trans h.counter)
  · rw [toNat_shiftConcat, h.alu, hmsb]
  · rw [toNat_shiftConcat, h.aluExt, hstep]
    omega

theorem RoundShifted.subtract (h : RoundShifted r n d c s) (rest done : Microword) :
    RoundSubtracted r n d c (s.pass (subtractRound rest done)) := by
  rw [pass_subtractRound]
  exact ⟨⟨h.dividendHi, h.dividendLo, h.divisor, h.addrHi, h.pcScratch⟩, h.counter, h.alu,
    h.aluExt, h.aluBuf, rfl, rfl⟩

/-- The subtraction branches on whether it belongs to the last round. -/
theorem RoundShifted.controlState_subtract (h : RoundShifted r n d c s) (rest done : Microword) :
    (s.pass (subtractRound rest done)).controlState = if c = 0 then done else rest := by
  have hzero : s.counter = 0 ↔ c = 0 := by
    rw [← h.counter]
    exact ⟨fun e => congrArg BitVec.toNat e, fun e => BitVec.eq_of_toNat_eq e⟩
  rw [pass_subtractRound]
  simp only [hzero]

namespace RoundSubtracted

theorem idle (h : RoundSubtracted r n d c s) (next : Branch) :
    RoundSubtracted r n d c (s.pass { branch := next }) := by
  rw [pass_idle]
  exact ⟨⟨h.dividendHi, h.dividendLo, h.divisor, h.addrHi, h.pcScratch⟩, h.counter, h.addrLo,
    h.aluExt, h.aluBuf, h.alu, h.flags⟩

/-- The subtraction borrows where the quotient has no bit, if no bit has left the register. -/
theorem carry_eq (h : RoundSubtracted r n d c s) (hd : 0 < d)
    (hfits : 2 * partialRemainder n d (c + 1) + n / 2 ^ c % 2 < 0x10000) :
    s.flags.carry = !quotientBit n d c := by
  rw [h.flags, h.alu, Flags.carry_subtraction, h.addrLo, h.aluBuf, Nat.mod_eq_of_lt hfits,
    quotientBit_eq_decide hd]
  simp only [← Nat.not_le, decide_not]

/-- Where the quotient has a bit, the difference is the partial remainder. The difference is right
even if a bit has left the register. -/
theorem toNat_alu (h : RoundSubtracted r n d c s) (hd : 0 < d)
    (hbit : quotientBit n d c = true) : s.alu.toNat = partialRemainder n d c := by
  have hstep := partialRemainder_step n d c
  have hlt : partialRemainder n d c < d := partialRemainder_lt hd
  have hbuf := h.aluBuf
  have hword := s.aluBuf.isLt
  rw [hbit, Bool.toNat_true, Nat.mul_one] at hstep
  -- the difference is taken modulo the word, and so is the bit that has left
  rw [h.alu, BitVec.toNat_sub, h.addrLo, hstep, hbuf]
  omega

/-- Where the quotient has no bit, the minuend was the partial remainder. -/
theorem toNat_addrLo (h : RoundSubtracted r n d c s) (hd : 0 < d)
    (hbit : quotientBit n d c = false) : s.addrLo.toNat = partialRemainder n d c := by
  have hstep := partialRemainder_step n d c
  have hlt : partialRemainder n d c < d := partialRemainder_lt hd
  have hword := s.aluBuf.isLt
  rw [h.aluBuf] at hword
  rw [hbit, Bool.toNat_false, Nat.mul_zero, Nat.zero_add] at hstep
  rw [h.addrLo, hstep]
  omega

theorem keep (h : RoundSubtracted r n d c s) (hd : 0 < d) (hbit : quotientBit n d c = true) :
    RoundStart r n d c s := by
  refine ⟨h.toHolding, h.counter, h.toNat_alu hd hbit, h.aluExt, h.aluBuf, ?_⟩
  rw [h.flags]
  rfl

theorem restore (h : RoundSubtracted r n d c s) (hd : 0 < d) (hbit : quotientBit n d c = false)
    (next : Branch) : RoundStart r n d c (s.pass (restoreRound next)) := by
  rw [pass_restoreRound]
  exact ⟨⟨h.dividendHi, h.dividendLo, h.divisor, h.addrHi, h.pcScratch⟩, h.counter,
    h.toNat_addrLo hd hbit, h.aluExt, h.aluBuf, rfl⟩

theorem extend_eq (h : RoundSubtracted r n d c s) (hd : 0 < d)
    (hfits : 2 * partialRemainder n d (c + 1) + n / 2 ^ c % 2 < 0x10000) :
    s.flags.extend = !quotientBit n d c := by
  rw [← h.carry_eq hd hfits, h.flags]
  rfl

/-- A microword that looks at the borrow, and one that puts the partial remainder back where there
was one, complete the round. -/
theorem exists_look {look back : Microword} (head : Bool → Microword)
    (h : RoundSubtracted r n d c s) (hd : 0 < d)
    (hfits : 2 * partialRemainder n d (c + 1) + n / 2 ^ c % 2 < 0x10000)
    (hw : s.controlState = look)
    (hlook : fetch look = some { branch := .test .carry (.goto back) (.goto (head true)) })
    (hback : fetch back = some (restoreRound (.goto (head false)))) :
    ∃ t, Leads s (look :: if quotientBit n d c then [] else [back]) t ∧
      RoundHead head r n d c t := by
  let i : Microinstruction := { branch := .test .carry (.goto back) (.goto (head true)) }
  have h₁ : RoundSubtracted r n d c (s.pass i) := h.idle i.branch
  have hw₁ := s.controlState_pass_test (i := i) rfl
  simp only [Condition.holds, h.carry_eq hd hfits] at hw₁
  cases hbit : quotientBit n d c
  case true =>
    rw [hbit] at hw₁
    exact ⟨_, .cons hw hlook (.nil _), h₁.keep hd hbit, by rw [hbit]; exact hw₁⟩
  case false =>
    rw [hbit] at hw₁
    refine ⟨_, .cons hw hlook (.cons hw₁ hback (.nil _)), h₁.restore hd hbit _, ?_⟩
    rw [RegisterFile.controlState_pass, hbit]
    rfl

/-! ### The last round -/

theorem shiftConcat_aluExt (h : RoundSubtracted r n d 0 s) :
    s.aluExt.shiftConcat (quotientBit n d 0) = BitVec.ofNat 16 (n / d) := by
  apply BitVec.eq_of_toNat_eq
  rw [toNat_shiftConcat, h.aluExt, toNat_quotientBit, BitVec.toNat_ofNat, shiftRegister_zero]
  omega

theorem addrLo_eq (h : RoundSubtracted r n d 0 s) :
    s.addrLo = BitVec.ofNat 16 (n % d + d * (n / d % 2)) := by
  apply BitVec.eq_of_toNat_eq
  rw [h.addrLo, BitVec.toNat_ofNat, partialRemainder_step, toNat_quotientBit,
    partialRemainder_zero, Nat.pow_zero, Nat.div_one, Nat.add_comm]

theorem alu_eq (h : RoundSubtracted r n d 0 s) (hd : 0 < d) (hbit : quotientBit n d 0 = true) :
    s.alu = BitVec.ofNat 16 (n % d) := by
  rw [← partialRemainder_zero n d, ← h.toNat_alu hd hbit, BitVec.ofNat_toNat, BitVec.setWidth_eq]

theorem addrLo_eq_of_not (h : RoundSubtracted r n d 0 s) (hd : 0 < d)
    (hbit : quotientBit n d 0 = false) : s.addrLo = BitVec.ofNat 16 (n % d) := by
  rw [← partialRemainder_zero n d, ← h.toNat_addrLo hd hbit, BitVec.ofNat_toNat,
    BitVec.setWidth_eq]

end RoundSubtracted

end DivisionMicrocode
