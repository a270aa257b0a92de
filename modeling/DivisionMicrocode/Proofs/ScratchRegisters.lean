import DivisionMicrocode.Proofs.Events
import DivisionMicrocode.Proofs.Results
/-!
# What was left in the scratch registers

The first two microwords of a division write all flags and all scratch registers but `addrLo`, and
read none of them. The third overwrites `addrLo`, unless the divisor was zero and there is no third.
So two divisions of the same operands run through the same registers from there on.
-/

namespace DivisionMicrocode

open ControlStore RegisterFile

/-- The registers `r` and `s` agree in what a division reads before it has written it. -/
structure SameOperands (r s : RegisterFile) : Prop where
  dividendHi : s.dividendHi = r.dividendHi
  dividendLo : s.dividendLo = r.dividendLo
  divisor : s.divisor = r.divisor
  counter : s.counter = r.counter
  cycles : s.cycles = r.cycles

/-- The content of the microword that branches on the divisor. -/
def testDivisor : Instruction → Microinstruction
  | .divu => unsigned .dvum2
  | .divs => signed .dvs03

/-- The registers after the two microwords up to the branch on the divisor. -/
def RegisterFile.tested (r : RegisterFile) (i : Instruction) : RegisterFile :=
  ((r.enter i).pass (distribute i.divisorTest)).pass (testDivisor i)

variable {r s t : RegisterFile} {i : Instruction} {more : List RegisterFile}

theorem SameOperands.dividend (h : SameOperands r s) : s.dividend = r.dividend := by
  rw [RegisterFile.dividend, h.dividendHi, h.dividendLo]
  rfl

/-! ## The first two microwords -/

section

attribute [local simp] RegisterFile.pass perform issue? issue afterMove afterAlu afterAddress
  AluOp.map operand RegisterFile.read write Branch.target Condition.holds enter unsigned signed
  distribute testDivisor probe negate Flags.logical

theorem tested_divu (r : RegisterFile) :
    r.tested .divu =
      { r with
        pcScratch := r.counter
        alu := r.dividendHi - r.divisor
        aluExt := r.dividendLo
        aluBuf := r.divisor
        addrHi := r.divisor
        flags := Flags.subtraction r.dividendHi r.divisor (r.dividendHi - r.divisor)
        controlState := if r.divisor = 0 then .exit .trap0 else .unsigned .dvum3
        cycles := r.cycles + clocksPerMicroword + clocksPerMicroword } := by
  simp [tested]

theorem tested_divs (r : RegisterFile) :
    r.tested .divs =
      { r with
        pcScratch := r.counter
        alu := -r.divisor
        aluExt := r.dividendLo
        aluBuf := r.divisor
        addrHi := r.divisor
        flags := Flags.subtraction 0 r.divisor (-r.divisor)
        controlState :=
          if r.divisor = 0 then .exit .trap0
          else if r.divisor.msb then .signed .dvs05 else .signed .dvs04
        cycles := r.cycles + clocksPerMicroword + clocksPerMicroword } := by
  simp [tested]
  -- the two sides decide the same conditions in different ways
  rfl

end

theorem fetch_divisorTest (i : Instruction) : fetch i.divisorTest = some (testDivisor i) := by
  cases i <;> rfl

theorem fetch_second (r : RegisterFile) (i : Instruction) :
    fetch ((r.enter i).pass (distribute i.divisorTest)).controlState = some (testDivisor i) := by
  rw [controlState_pass]
  exact fetch_divisorTest i

/-- Only `addrLo` may still differ. -/
theorem SameOperands.tested (h : SameOperands r s) (i : Instruction) :
    s.tested i = { r.tested i with addrLo := s.addrLo } := by
  cases i with
  | divu =>
      simp only [tested_divu, h.dividendHi, h.dividendLo, h.divisor, h.counter, h.cycles]
  | divs =>
      simp only [tested_divs, h.dividendHi, h.dividendLo, h.divisor, h.counter, h.cycles]

theorem addrLo_tested (r : RegisterFile) (i : Instruction) : (r.tested i).addrLo = r.addrLo := by
  cases i with
  | divu => rw [tested_divu]
  | divs => rw [tested_divs]

theorem isTerminal_tested (hd : r.divisor = 0) (i : Instruction) :
    (r.tested i).controlState.isTerminal = true := by
  cases i with
  | divu =>
      rw [tested_divu, if_pos hd]
      rfl
  | divs =>
      rw [tested_divs, if_pos hd]
      rfl

/-! ## The third microword -/

/-- The third microword overwrites `addrLo` and does not read it. -/
theorem exists_overwrite (hd : r.divisor ≠ 0) (i : Instruction) :
    ∃ m, fetch (r.tested i).controlState = some m ∧
      ∀ x, { r.tested i with addrLo := x }.pass m = (r.tested i).pass m := by
  cases i with
  | divu =>
      have hw : (r.tested .divu).controlState = .unsigned .dvum3 := by
        rw [tested_divu, if_neg hd]
      exact ⟨unsigned .dvum3, congrArg fetch hw, fun _ => rfl⟩
  | divs =>
      cases hsign : r.divisor.msb
      case false =>
        have hw : (r.tested .divs).controlState = .signed .dvs04 := by
          simp only [tested_divs, if_neg hd, hsign, Bool.false_eq_true, if_false]
        exact ⟨signed .dvs04, congrArg fetch hw, fun _ => rfl⟩
      case true =>
        have hw : (r.tested .divs).controlState = .signed .dvs05 := by
          simp only [tested_divs, if_neg hd, hsign, if_true]
        exact ⟨signed .dvs05, congrArg fetch hw, fun _ => rfl⟩

/-! ## The rest of the way -/

/-- The rest of a division of the same operands differs in `addrLo` at most, and there only as long
as no third microword has come up. -/
theorem exists_rest (h : SameOperands r s) (q : Path (r.tested i) more t)
    (ht : t.controlState.isTerminal = true) :
    ∃ more' t', Path (s.tested i) more' t' ∧
      more'.map Snapshot.ofRegisters = more.map Snapshot.ofRegisters ∧
      Snapshot.ofRegisters t' = Snapshot.ofRegisters t ∧
      (r.divisor = 0 → t.addrLo = r.addrLo ∧ t' = { t with addrLo := s.addrLo }) ∧
      (r.divisor ≠ 0 → t' = t) := by
  rw [h.tested i]
  by_cases hd : r.divisor = 0
  · -- the trap leaves no microword to come
    have hterminal := isTerminal_tested hd i
    cases q with
    | nil =>
        refine ⟨[], _, .nil _, rfl, rfl, fun _ => ⟨addrLo_tested r i, rfl⟩, ?_⟩
        exact fun hne => absurd hd hne
    | cons hi _ =>
        rw [isTerminal_of_fetch hi] at hterminal
        cases hterminal
  · -- one microword later the two divisions hold the same registers, so one path serves both
    obtain ⟨m, hm, hpass⟩ := exists_overwrite hd i
    obtain ⟨rest, rfl, hrest⟩ := q.exists_cons ht hm
    rw [← hpass s.addrLo] at hrest
    exact ⟨_, t, .cons hm hrest, rfl, rfl, fun hzero => absurd hzero hd, fun _ => rfl⟩

/-- Both divisions begin with the same two microwords. -/
theorem divide_eq_of_path (q : Path (r.tested i) more t) (ht : t.controlState.isTerminal = true)
    (hcounted : (r.divide i).Counted) :
    r.divide i =
      { visited := r.enter i :: (r.enter i).pass (distribute i.divisorTest) :: more
        final := t
        ending := .completed } := by
  have p : Path (r.enter i) _ t := .cons (fetch_entry i) (.cons (fetch_second r i) q)
  exact run_eq_of_path p ht (lt_of_counted_run p ht hcounted)

theorem exists_path_tested (r : RegisterFile) (i : Instruction) :
    ∃ more t, Path (r.tested i) more t ∧ t.controlState.isTerminal = true := by
  obtain ⟨t, h⟩ := exists_completes r i
  obtain ⟨_, p, -⟩ := h.leads
  obtain ⟨_, -, p₁⟩ := p.exists_cons h.isTerminal (fetch_entry i)
  obtain ⟨more, -, p₂⟩ := p₁.exists_cons h.isTerminal (fetch_second r i)
  exact ⟨more, t, p₂, h.isTerminal⟩

theorem drop_two_events {o : Outcome} (q : Path (r.tested i) more t)
    (ht : t.controlState.isTerminal = true) (hcounted : (r.divide i).Counted)
    (hresult : (r.divide i).result = .ok o) :
    (r.events i).drop 2 =
      (more.map Snapshot.ofRegisters).map .step ++ [.exit (.ofRegisters t) o] := by
  rw [events_of_result hresult, divide_eq_of_path q ht hcounted, List.map_map]
  rfl

/-! ## Two divisions -/

theorem SameOperands.counted (h : SameOperands r s) (hcounted : (r.divide i).Counted) :
    (s.divide i).Counted := by
  rw [counted_divide_iff, h.cycles, h.dividend, h.divisor]
  exact counted_divide_iff.1 hcounted

/-- Two divisions of the same operands go through the same microwords to the same result, whatever
the scratch registers and the flags held. They end with the same registers, except that `addrLo` is
as it was after a division by zero, and from the third event on they show the same. -/
theorem divide_of_sameOperands (i : Instruction) (h : SameOperands r s)
    (hcounted : (r.divide i).Counted) :
    ∃ o, (r.divide i).result = .ok o ∧ (s.divide i).result = .ok o ∧
      (s.divide i).visited.map (·.controlState) = (r.divide i).visited.map (·.controlState) ∧
      (o = .divisionByZero →
        (r.divide i).final.addrLo = r.addrLo ∧
          (s.divide i).final = { (r.divide i).final with addrLo := s.addrLo }) ∧
      (o ≠ .divisionByZero → (s.divide i).final = (r.divide i).final) ∧
      (s.events i).drop 2 = (r.events i).drop 2 := by
  have hcounted' := h.counted hcounted
  obtain ⟨_, hr⟩ := exists_completes r i
  obtain ⟨_, hs⟩ := exists_completes s i
  rw [h.dividend, h.divisor] at hs
  have hresult := hr.result_eq hcounted
  have hresult' := hs.result_eq hcounted'
  have hzero := outcome_eq_divisionByZero_iff i r.dividend r.divisor
  obtain ⟨more, t, q, ht⟩ := exists_path_tested r i
  obtain ⟨more', t', q', hmore, hshown, htrap, hrest⟩ := exists_rest h q ht
  have ht' : t'.controlState.isTerminal = true := by
    have hw : t'.controlState = t.controlState := congrArg Snapshot.microword hshown
    rw [hw, ht]
  have hfinal : (r.divide i).final = t :=
    congrArg Course.final (divide_eq_of_path q ht hcounted)
  have hfinal' : (s.divide i).final = t' :=
    congrArg Course.final (divide_eq_of_path q' ht' hcounted')
  refine ⟨_, hresult, hresult', ?_, ?_, ?_, ?_⟩
  · rw [hr.map_controlState_visited hcounted, hs.map_controlState_visited hcounted']
  · intro htrapped
    rw [hfinal, hfinal']
    exact htrap (hzero.1 htrapped)
  · intro hpassed
    rw [hfinal, hfinal']
    exact hrest (mt hzero.2 hpassed)
  · rw [drop_two_events q ht hcounted hresult, drop_two_events q' ht' hcounted' hresult', hmore,
      hshown]

/-- Leftovers of every kind against clear registers, where the divisor is zero and where it is
not. -/
theorem divide_of_sameOperands_stale :
    let r (divisor : Word) := RegisterFile.ofOperands 0x7654321F divisor
    let s (divisor : Word) := { staleRegisters 0x7654321F divisor 0 with counter := 0 }
    (SameOperands (r 0) (s 0) ∧ ((r 0).divide .divs).Counted ∧
        ((r 0).divide .divs).final.addrLo = 0 ∧ ((s 0).divide .divs).final.addrLo = 0x5A5A) ∧
      SameOperands (r 0xA5A5) (s 0xA5A5) ∧ ((r 0xA5A5).divide .divu).Counted ∧
        ((s 0xA5A5).divide .divu).final = ((r 0xA5A5).divide .divu).final := by
  intro r s
  have h : SameOperands (r 0) (s 0) := ⟨rfl, rfl, rfl, rfl, rfl⟩
  have h' : SameOperands (r 0xA5A5) (s 0xA5A5) := ⟨rfl, rfl, rfl, rfl, rfl⟩
  have hcounted : ((r 0).divide .divs).Counted := counted_divide_iff.2 (by decide +kernel)
  have hcounted' : ((r 0xA5A5).divide .divu).Counted := counted_divide_iff.2 (by decide +kernel)
  obtain ⟨o, hresult, -, -, htrap, -⟩ := divide_of_sameOperands .divs h hcounted
  obtain ⟨o', hresult', -, -, -, hrest, -⟩ := divide_of_sameOperands .divu h' hcounted'
  have ho : o = .divisionByZero := by
    obtain ⟨_, hc⟩ := exists_completes (r 0) .divs
    exact Except.ok.inj (hresult.symm.trans (hc.result_eq hcounted))
  have ho' : o' = .normal := by
    obtain ⟨_, hc⟩ := exists_completes (r 0xA5A5) .divu
    rw [hc.result_eq hcounted'] at hresult'
    exact (Except.ok.inj hresult').symm.trans (by decide +kernel)
  obtain ⟨haddr, hfinal⟩ := htrap ho
  refine ⟨⟨h, hcounted, haddr, ?_⟩, h', hcounted', hrest (by rw [ho']; decide)⟩
  rw [hfinal]
  rfl

end DivisionMicrocode
