import DivisionMicrocode.Proofs.Path
import DivisionMicrocode.Proofs.WordArithmetic
/-!
# The signs of a signed division

The microwords from `dvs15` on give the quotient and the remainder of the absolute values their
signs, and leave for the overflow where the quotient does not show its sign. There are four ways,
one for each pair of signs. All four meet in what they have computed by the test of the quotient
(`reaches_signs`), so what follows the test depends on the sign of the dividend and on the test
only.
-/

namespace DivisionMicrocode

open ControlStore RegisterFile

/-- The labels from the look at the sign of the divisor to the test of the quotient. -/
def signsLabels (negativeDivisor negativeDividend : Bool) : List Microword :=
  match negativeDivisor, negativeDividend with
  | false, false => [.signed .dvs15, .signed .dvs16, .signed .dvs17]
  | false, true => [.signed .dvs15, .signed .dvs16, .signed .dvs1a, .signed .dvs1b]
  | true, false => [.signed .dvs15, .signed .dvs1d, .signed .dvs1f, .signed .dvs20]
  | true, true => [.signed .dvs15, .signed .dvs1d, .signed .dvs1e]

theorem dvuma_notMem_signsLabels (x y : Bool) : .exit .dvuma ∉ signsLabels x y := by
  cases x <;> cases y <;> decide

/-- The label after the test of the quotient. -/
def afterSigns (negativeDividend fits : Bool) : Microword :=
  if fits then if negativeDividend then .signed .dvs1c else .exit .leaa2
  else if negativeDividend then .exit .dvum4 else .exit .dvuma

def writeBackLabels (negativeDividend : Bool) : List Microword :=
  if negativeDividend then [.signed .dvs1c, .exit .leaa2] else [.exit .leaa2]

/-- The labels of the overflow of a quotient that does not show its sign. -/
def lateOverflowLabels (negativeDividend : Bool) : List Microword :=
  if negativeDividend then [.exit .dvum4, .exit .dvuma] else [.exit .dvuma]

theorem dvuma_notMem_writeBackLabels (x : Bool) : .exit .dvuma ∉ writeBackLabels x := by
  cases x <;> decide

theorem dvuma_mem_lateOverflowLabels (x : Bool) : .exit .dvuma ∈ lateOverflowLabels x := by
  cases x <;> decide

namespace RegisterFile

/-- The quotient of the absolute values with the sign that the operands ask for. -/
def signedQuotient (s : RegisterFile) : Word :=
  withSign (s.dividendHi.msb ^^ s.divisor.msb) s.aluExt

/-- Whether the quotient shows its sign. -/
def quotientShowsSign (s : RegisterFile) : Bool :=
  showsSign (s.dividendHi.msb ^^ s.divisor.msb) s.signedQuotient

/-- The extend flag that the last subtraction leaves: the negation of the remainder, or else that
of the quotient. -/
def signsExtend (s : RegisterFile) : Bool :=
  if s.dividendHi.msb then s.addrLo != 0
  else if s.divisor.msb then s.aluExt != 0
  else s.flags.extend

/-- The registers after the test of the quotient. The negated remainder is in no place yet that
the write-back looks at. -/
def withSigns (s : RegisterFile) : RegisterFile :=
  { s with
    alu := if s.dividendHi.msb then -s.addrLo else s.signedQuotient
    aluBuf := s.signedQuotient
    addrHi := s.addrLo
    addrLo := s.signedQuotient
    flags :=
      if s.dividendHi.msb then Flags.subtraction 0 s.addrLo (-s.addrLo)
      else
        { zero := s.signedQuotient == 0
          negative := s.signedQuotient.msb
          extend := s.signsExtend }
    controlState := afterSigns s.dividendHi.msb s.quotientShowsSign }

end RegisterFile

section

attribute [local simp] RegisterFile.pass perform issue? issue afterMove afterAlu afterAddress
  AluOp.map operand RegisterFile.read write Branch.target Condition.holds signed exit probe negate
  Flags.logical Flags.subtraction_zero Flags.extend_negation

variable {s : RegisterFile}

/-- The four ways have computed the same by the test of the quotient. -/
theorem reaches_signs (hw : s.controlState = .signed .dvs15)
    (hnegative : s.flags.negative = s.divisor.msb) :
    Reaches s (signsLabels s.divisor.msb s.dividendHi.msb) s.withSigns := by
  unfold withSigns signsExtend quotientShowsSign signedQuotient
  cases hdivisor : s.divisor.msb <;> cases hdividend : s.dividendHi.msb <;>
    simp only [hdivisor, Bool.xor_false, Bool.xor_true, Bool.not_false, Bool.not_true, withSign,
      showsSign, Bool.false_eq_true, if_false, if_true] at hnegative ⊢
  case false.false =>
    refine .of_eq (.cons hw rfl (.cons ?_ rfl (.cons ?_ rfl (.nil _)))) ?_
    · simp [hnegative]
    · simp [hdividend]
    · cases hq : s.aluExt.msb <;> simp [afterSigns, hq]
  -- a negated quotient passes with its sign bit set, or as zero
  case false.true =>
    refine .of_eq (.cons hw rfl (.cons ?_ rfl (.cons ?_ rfl (.cons rfl rfl (.nil _))))) ?_
    · simp [hnegative]
    · simp [hdividend]
    · by_cases hzero : s.aluExt = 0#16
      · simp [afterSigns, hzero]
      · cases hq : (-s.aluExt).msb <;> simp [afterSigns, hzero, hq]
  case true.false =>
    refine .of_eq (.cons hw rfl (.cons ?_ rfl (.cons ?_ rfl (.cons rfl rfl (.nil _))))) ?_
    · simp [hnegative]
    · simp [hdividend]
    · by_cases hzero : s.aluExt = 0#16
      · simp [afterSigns, hzero]
      · cases hq : (-s.aluExt).msb <;> simp [afterSigns, hzero, hq]
  case true.true =>
    refine .of_eq (.cons hw rfl (.cons ?_ rfl (.cons ?_ rfl (.nil _)))) ?_
    · simp [hnegative]
    · simp [hdividend]
    · cases hq : s.aluExt.msb <;> simp [afterSigns, hq]

/-- A quotient that shows its sign is written back together with the remainder. -/
theorem reaches_writeBack (hfits : s.quotientShowsSign = true) (c : Clocks) :
    Reaches { s.withSigns with cycles := c } (writeBackLabels s.dividendHi.msb)
      { s with
        dividendHi := withSign s.dividendHi.msb s.addrLo
        dividendLo := s.signedQuotient
        alu := s.signedQuotient
        aluBuf := s.signedQuotient
        addrHi := withSign s.dividendHi.msb s.addrLo
        addrLo := s.signedQuotient
        flags :=
          { zero := s.signedQuotient == 0
            negative := s.signedQuotient.msb
            extend := s.signsExtend }
        controlState := .exit .a1 } := by
  unfold withSigns signsExtend writeBackLabels
  cases hdividend : s.dividendHi.msb
  case false =>
    refine .of_eq (.cons ?_ rfl (.nil _)) ?_
    · simp [afterSigns, hfits]
    · simp [withSign]
  case true =>
    refine .of_eq (.cons ?_ rfl (.cons rfl rfl (.nil _))) ?_
    · simp [afterSigns, hfits]
    · simp [withSign]

/-- A quotient that does not show its sign leaves the registers as they are. -/
theorem reaches_lateOverflow (hfits : s.quotientShowsSign = false) (c : Clocks) :
    Reaches { s.withSigns with cycles := c } (lateOverflowLabels s.dividendHi.msb)
      { s.withSigns with controlState := .exit .a1 } := by
  unfold lateOverflowLabels
  cases hdividend : s.dividendHi.msb
  case false =>
    refine .of_eq (.cons ?_ rfl (.nil _)) ?_
    · simp [withSigns, afterSigns, hfits, hdividend]
    · simp
  case true =>
    refine .of_eq (.cons ?_ rfl (.cons rfl rfl (.nil _))) ?_
    · simp [withSigns, afterSigns, hfits, hdividend]
    · simp

end

end DivisionMicrocode
