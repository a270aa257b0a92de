import DivisionMicrocode.Proofs.Events
import DivisionMicrocode.Proofs.Results
/-!
# The operands during a division

No microword writes the divisor, and none writes the dividend register before the division is about
to write its result back. Where that may have begun can be read off the control store: each label
has registers that a division has not written when it gets there (`Microword.keeps`), and these are
among those of every label that leads to it (`keeps_of_mem_labels`).
-/

namespace DivisionMicrocode

open ControlStore RegisterFile

/-! ## What a microinstruction writes, and where it leads -/

/-- The data registers that a microinstruction may change: the arithmetic unit writes its own. -/
def Microinstruction.writes (i : Microinstruction) : List WordRegister :=
  .alu :: .aluExt :: i.moves.map (·.1)

/-- The microwords that a branch may choose. -/
def Branch.labels : Branch → List Microword
  | goto next => [next]
  | test _ yes no => yes.labels ++ no.labels

theorem Branch.target_mem_labels (b : Branch) (f : Flags) (counter : Long) :
    b.target f counter ∈ b.labels := by
  induction b with
  | goto next => exact List.mem_singleton.2 rfl
  | test c yes no hyes hno =>
    rw [target, labels, List.mem_append]
    split
    · exact .inl hyes
    · exact .inr hno

namespace RegisterFile

theorem read_foldl_afterMove {ms : List (WordRegister × WordRegister)} {x : WordRegister}
    (hx : x ∉ ms.map (·.1)) (r : RegisterFile) : (ms.foldl afterMove r).read x = r.read x := by
  induction ms generalizing r with
  | nil => rfl
  | cons m ms ih =>
    rw [List.map_cons, List.mem_cons, not_or] at hx
    rw [List.foldl_cons, ih hx.2, afterMove, read_write_of_ne _ _ hx.1]

theorem read_afterAddress (r : RegisterFile) (a : AddressOp) (x : WordRegister) :
    (r.afterAddress a).read x = r.read x := by
  cases a <;> cases x <;> rfl

theorem read_issue? {x : WordRegister} (halu : x ≠ .alu) (hext : x ≠ .aluExt) (r : RegisterFile)
    (op : Option (AluOp Operand)) : (r.issue? op).2.read x = r.read x := by
  rcases op with _ | op
  · rfl
  · cases op <;> cases x <;> first | rfl | contradiction

/-- A microinstruction leaves alone what it does not write. -/
theorem read_pass {i : Microinstruction} {x : WordRegister} (hx : x ∉ i.writes)
    (r : RegisterFile) : (r.pass i).read x = r.read x := by
  simp only [Microinstruction.writes, List.mem_cons, not_or] at hx
  obtain ⟨halu, hext, hmoves⟩ := hx
  have hperform (s : RegisterFile) : (s.perform i).read x = s.read x := by
    have hstate (t : RegisterFile) (w : Microword) :
        { t with controlState := w }.read x = t.read x := by
      cases x <;> rfl
    rw [perform, hstate, read_issue? halu hext, read_foldl_afterMove hmoves, read_afterAddress]
  rw [pass, hperform, read_withCycles]

end RegisterFile

/-! ## The control store -/

/-- The microwords of the unsigned division that come up once it has begun to write back. -/
def unsignedWriteBack : List Microword := [.unsigned .dvumd, .unsigned .dvumf, .unsigned .dvum0]

/-- Whether a register holds its entry value when the microword comes up. -/
def Microword.keeps (w : Microword) : WordRegister → Bool
  | .divisor => true
  | .dividendLo => !w.isTerminal
  | .dividendHi => !w.isTerminal && decide (w ∉ unsignedWriteBack)
  | .alu | .aluExt | .aluBuf | .addrHi | .addrLo => false

def Microword.isUnsigned : Microword → Bool
  | unsigned _ => true
  | signed _ | exit _ => false

variable {r s t : RegisterFile} {i : Instruction} {w next : Microword} {m : Microinstruction}
  {x : WordRegister} {visited : List RegisterFile}

theorem keeps_of_mem_labels (hm : fetch w = some m) (hnext : next ∈ m.branch.labels)
    (hx : next.keeps x = true) : w.keeps x = true ∧ x ∉ m.writes := by
  revert next
  cases x
  case divisor | dividendLo | dividendHi =>
    rcases w with w | w | w <;> cases w <;> cases hm <;> decide
  all_goals exact fun _ h => nomatch h

theorem isUnsigned_of_mem_labels (hm : fetch w = some m) (hw : w.isUnsigned = false)
    (hnext : next ∈ m.branch.labels) : next.isUnsigned = false := by
  revert next
  rcases w with w | w | w
  · cases hw
  · cases w <;> cases hm <;> decide
  · cases w <;> cases hm <;> decide

/-! ## Along a path -/

/-- The registers `s` hold what `r` does in all places that their next microword keeps. -/
def KeepsOperands (r s : RegisterFile) : Prop :=
  ∀ x, s.controlState.keeps x = true → s.read x = r.read x

theorem KeepsOperands.pass (h : KeepsOperands r s) (hm : fetch s.controlState = some m) :
    KeepsOperands r (s.pass m) := by
  intro x hx
  rw [controlState_pass] at hx
  obtain ⟨hkeeps, hwrites⟩ := keeps_of_mem_labels hm (m.branch.target_mem_labels _ _) hx
  rw [read_pass hwrites, h x hkeeps]

theorem KeepsOperands.divisor_eq (h : KeepsOperands r s) : s.divisor = r.divisor := by
  exact h .divisor rfl

theorem KeepsOperands.dividendLo_eq (h : KeepsOperands r s)
    (hw : s.controlState.isTerminal = false) : s.dividendLo = r.dividendLo := by
  apply h .dividendLo
  rw [Microword.keeps, hw, Bool.not_false]

theorem KeepsOperands.dividendHi_eq (h : KeepsOperands r s)
    (hw : s.controlState.isTerminal = false) (hback : s.controlState ∉ unsignedWriteBack) :
    s.dividendHi = r.dividendHi := by
  apply h .dividendHi
  rw [Microword.keeps, hw, decide_eq_true hback]
  rfl

theorem Path.keepsOperands (p : Path (r.enter i) visited t) :
    ∀ s ∈ visited ++ [t], KeepsOperands r s := by
  apply p.forall_mem (P := KeepsOperands r)
  · intro s m hm h
    exact h.pass hm
  · intro x _
    cases x <;> rfl

theorem Path.not_isUnsigned (p : Path (r.enter .divs) visited t) :
    ∀ s ∈ visited ++ [t], s.controlState.isUnsigned = false := by
  apply p.forall_mem (P := fun s => s.controlState.isUnsigned = false)
  · intro s m hm h
    rw [controlState_pass]
    exact isUnsigned_of_mem_labels hm h (m.branch.target_mem_labels _ _)
  · rfl

/-- The write-back of the unsigned quotient is the last microword, and leaves the remainder. -/
theorem Path.dividendHi_eq_of_dvum0 (p : Path r visited t) (hs : s ∈ visited)
    (hw : s.controlState = .unsigned .dvum0) : t.dividendHi = s.dividendHi := by
  obtain ⟨more, q⟩ := p.exists_of_mem hs
  cases q with
  | cons hm q =>
    rw [hw] at hm
    obtain rfl := Option.some.inj hm
    have hnext : (s.pass (unsigned .dvum0)).controlState = .exit .a1 := controlState_pass s _
    rw [q.eq_of_isTerminal (by rw [hnext]; rfl)]
    exact read_pass (x := .dividendHi) (by decide) s

/-! ## Along a division -/

theorem fits_of_mem_unsignedLabels {n d : Nat} (hw : w ∈ unsignedLabels n d)
    (hback : w ∈ unsignedWriteBack) : d ≠ 0 ∧ n / d < 0x10000 := by
  by_contra hfails
  have hnone : ∀ v ∈ unsignedWriteBack, v ∉ unsignedLabels n d := by
    unfold unsignedLabels
    by_cases hd : d = 0
    · rw [if_pos hd]
      decide
    · have hq : 0x10000 ≤ n / d := Nat.not_lt.1 fun hq => hfails ⟨hd, hq⟩
      rw [if_neg hd, if_pos hq]
      decide
  exact hnone w hback hw

theorem path_divide (hcounted : (r.divide i).Counted) :
    Path (r.enter i) (r.divide i).visited (r.divide i).final := by
  obtain ⟨t, h⟩ := exists_completes r i
  obtain ⟨visited, p, -, hdivide⟩ := h.exists_divide_eq hcounted
  rw [hdivide]
  exact p

theorem notMem_unsignedWriteBack_divs (hcounted : (r.divide .divs).Counted)
    (hs : s ∈ (r.divide .divs).visited) : s.controlState ∉ unsignedWriteBack := by
  have hsigned := (path_divide hcounted).not_isUnsigned s (List.mem_append_left _ hs)
  have hback : ∀ w ∈ unsignedWriteBack, w.isUnsigned = true := by decide
  intro hw
  rw [hback _ hw] at hsigned
  cases hsigned

/-- The unsigned division begins to write back only if the quotient fits. -/
theorem fits_of_mem_unsignedWriteBack (hcounted : (r.divide i).Counted)
    (hs : s ∈ (r.divide i).visited) (hw : s.controlState ∈ unsignedWriteBack) :
    i = .divu ∧ r.divisor ≠ 0 ∧ r.dividend.toNat / r.divisor.toNat < 0x10000 := by
  cases i with
  | divs => exact absurd hw (notMem_unsignedWriteBack_divs hcounted hs)
  | divu =>
    obtain ⟨t, h⟩ := exists_completes_divu r
    have hlabel := List.mem_map_of_mem (f := (·.controlState)) hs
    rw [h.map_controlState_visited hcounted] at hlabel
    obtain ⟨hd, hq⟩ := fits_of_mem_unsignedLabels hlabel hw
    exact ⟨rfl, (toNat_pos_iff r.divisor).1 (Nat.pos_of_ne_zero hd), hq⟩

theorem result_of_mem_unsignedWriteBack (hcounted : (r.divide i).Counted)
    (hs : s ∈ (r.divide i).visited) (hw : s.controlState ∈ unsignedWriteBack) :
    (r.divide i).result = .ok .normal := by
  obtain ⟨rfl, hd, hq⟩ := fits_of_mem_unsignedWriteBack hcounted hs hw
  rw [(yields_divide hcounted).result, Instruction.result, unsignedResult_of_lt hd hq]

theorem toNat_remainder_of_dvum0 (hcounted : (r.divide i).Counted)
    (hs : s ∈ (r.divide i).visited) (hw : s.controlState = .unsigned .dvum0) :
    (r.divide i).final.dividendHi.toNat = r.dividend.toNat % r.divisor.toNat := by
  have hback : s.controlState ∈ unsignedWriteBack := by
    rw [hw]
    decide
  obtain ⟨rfl, hd, hq⟩ := fits_of_mem_unsignedWriteBack hcounted hs hback
  have hword := r.divisor.isLt
  have hrem : r.dividend.toNat % r.divisor.toNat < r.divisor.toNat :=
    Nat.mod_lt _ ((toNat_pos_iff r.divisor).2 hd)
  have hremainder : (r.divide .divu).final.dividendHi = _ := (yields_divide hcounted).remainder
  rw [hremainder, Instruction.result, unsignedResult_of_lt hd hq, BitVec.toNat_ofNat,
    Nat.mod_eq_of_lt (by omega)]

/-- A division that fails has not touched the dividend register at any time. -/
theorem dividend_of_ne_normal (hcounted : (r.divide i).Counted)
    (hfailed : (r.divide i).result ≠ .ok .normal)
    (hs : s ∈ (r.divide i).visited ++ [(r.divide i).final]) :
    s.dividendHi = r.dividendHi ∧ s.dividendLo = r.dividendLo := by
  have p := path_divide hcounted
  have hkept := p.keepsOperands s hs
  rcases List.mem_append.1 hs with hs | hs
  · have hw := p.isTerminal_of_mem hs
    have hback := mt (result_of_mem_unsignedWriteBack hcounted hs) hfailed
    exact ⟨hkept.dividendHi_eq hw hback, hkept.dividendLo_eq hw⟩
  · obtain rfl := List.mem_singleton.1 hs
    have hyields := yields_divide hcounted
    have hne : (i.result r.dividend r.divisor).outcome ≠ .normal := by
      rw [hyields.result, ne_eq, Except.ok.injEq] at hfailed
      exact hfailed
    rw [result_of_ne_normal hne] at hyields
    exact ⟨hyields.remainder.trans r.high_dividend, hyields.quotient.trans r.low_dividend⟩

/-! ## The events -/

variable {o : Outcome} {e : Event} {q : Snapshot}

theorem exists_registers_of_mem_events (hresult : (r.divide i).result = .ok o)
    (he : e ∈ r.events i) :
    ∃ s ∈ (r.divide i).visited ++ [(r.divide i).final], e.state = .ofRegisters s := by
  rw [events_of_result hresult, List.mem_append, List.mem_map, List.mem_singleton] at he
  rcases he with ⟨s, hs, rfl⟩ | rfl
  · exact ⟨s, List.mem_append_left _ hs, rfl⟩
  · exact ⟨_, List.mem_append_right _ (List.mem_singleton_self _), rfl⟩

theorem exists_registers_of_step_mem_events (hresult : (r.divide i).result = .ok o)
    (hq : .step q ∈ r.events i) : ∃ s ∈ (r.divide i).visited, .ofRegisters s = q := by
  rw [events_of_result hresult, List.mem_append, List.mem_map, List.mem_singleton] at hq
  rcases hq with ⟨s, hs, heq⟩ | heq
  · exact ⟨s, hs, Event.step.inj heq⟩
  · cases heq

theorem exists_step_of_mem_labels (hcounted : (r.divide i).Counted)
    (hw : w ∈ i.labels r.dividend r.divisor) : ∃ q, .step q ∈ r.events i ∧ q.microword = w := by
  obtain ⟨t, h⟩ := exists_completes r i
  rw [← h.map_controlState_visited hcounted, List.mem_map] at hw
  obtain ⟨s, hs, rfl⟩ := hw
  refine ⟨.ofRegisters s, ?_, rfl⟩
  rw [events_of_result (h.result_eq hcounted)]
  exact List.mem_append_left _ (List.mem_map_of_mem hs)

/-- What the events of a division show of its operands: the divisor always, and the dividend until
the write-back. Only an unsigned division begins to write back before its last step, and it shows
the final remainder by that step. -/
theorem events_show_operands (r : RegisterFile) (i : Instruction)
    (hcounted : (r.divide i).Counted) :
    let c := r.divide i
    (∀ e ∈ r.events i, e.state.divisor = r.divisor) ∧
      (∀ q, .step q ∈ r.events i →
        q.dividendLo = r.dividendLo ∧
          (i = .divs → q.dividendHi = r.dividendHi) ∧
          (q.microword ∉ unsignedWriteBack → q.dividendHi = r.dividendHi) ∧
          (q.microword ∈ unsignedWriteBack → c.result = .ok .normal) ∧
          (q.microword = .unsigned .dvum0 →
            q.dividendHi = c.final.dividendHi ∧
              q.dividendHi.toNat = r.dividend.toNat % r.divisor.toNat)) ∧
      (c.result = .ok .divisionByZero ∨ c.result = .ok .overflow →
        ∀ e ∈ r.events i,
          e.state.dividendHi = r.dividendHi ∧ e.state.dividendLo = r.dividendLo) := by
  intro c
  have p : Path (r.enter i) c.visited c.final := path_divide hcounted
  have hresult : c.result = .ok _ := (yields_divide hcounted).result
  refine ⟨?_, ?_, ?_⟩
  · intro e he
    obtain ⟨s, hs, hstate⟩ := exists_registers_of_mem_events hresult he
    rw [hstate]
    exact (p.keepsOperands s hs).divisor_eq
  · intro q hq
    obtain ⟨s, hs, rfl⟩ := exists_registers_of_step_mem_events hresult hq
    have hkept := p.keepsOperands s (List.mem_append_left _ hs)
    have hw := p.isTerminal_of_mem hs
    refine ⟨hkept.dividendLo_eq hw, ?_, hkept.dividendHi_eq hw,
      result_of_mem_unsignedWriteBack hcounted hs, ?_⟩
    · rintro rfl
      exact hkept.dividendHi_eq hw (notMem_unsignedWriteBack_divs hcounted hs)
    · intro hdvum0
      have hfinal : c.final.dividendHi = s.dividendHi := p.dividendHi_eq_of_dvum0 hs hdvum0
      refine ⟨hfinal.symm, ?_⟩
      exact (congrArg BitVec.toNat hfinal).symm.trans
        (toNat_remainder_of_dvum0 hcounted hs hdvum0)
  · intro hfails e he
    have hne : c.result ≠ .ok .normal := by
      rcases hfails with h | h <;> rw [h] <;> decide
    obtain ⟨s, hs, hstate⟩ := exists_registers_of_mem_events hresult he
    rw [hstate]
    exact dividend_of_ne_normal hcounted hne hs

/-- An even quotient, so that the last subtraction is undone by the microword before the last, and
an overflow after all rounds. -/
theorem events_show_operands_undone :
    let r := staleRegisters 0x2D 7 0
    let s := staleRegisters 0xC0000000 0x7FFF 0
    ((r.divide .divu).Counted ∧ (r.divide .divu).result = .ok .normal ∧
        (∃ q, .step q ∈ r.events .divu ∧ q.microword = .unsigned .dvumf ∧ q.dividendLo = 0x2D) ∧
        ∃ q, .step q ∈ r.events .divu ∧ q.microword = .unsigned .dvum0 ∧ q.dividendLo = 0x2D ∧
          q.dividendHi.toNat = 3) ∧
      (s.divide .divs).Counted ∧ (s.divide .divs).result = .ok .overflow ∧
        ∀ e ∈ s.events .divs, e.state.dividendHi = 0xC000 ∧ e.state.dividendLo = 0 := by
  intro r s
  have hcounted : (r.divide .divu).Counted := counted_divide_iff.2 (by decide +kernel)
  have hcounted' : (s.divide .divs).Counted := counted_divide_iff.2 (by decide +kernel)
  obtain ⟨-, hsteps, -⟩ := events_show_operands r .divu hcounted
  obtain ⟨-, -, hfails⟩ := events_show_operands s .divs hcounted'
  obtain ⟨q, hq, hqw⟩ := exists_step_of_mem_labels (w := .unsigned .dvumf) hcounted
    (by decide +kernel)
  obtain ⟨q', hq', hqw'⟩ := exists_step_of_mem_labels (w := .unsigned .dvum0) hcounted
    (by decide +kernel)
  obtain ⟨hlo, -, -, hnormal, -⟩ := hsteps q hq
  obtain ⟨hlo', -, -, -, hlast⟩ := hsteps q' hq'
  have hoverflow : (s.divide .divs).result = .ok .overflow :=
    (yields_divide hcounted').result.trans (by decide +kernel)
  refine ⟨⟨hcounted, hnormal (by rw [hqw]; decide), ⟨q, hq, hqw, hlo.trans (by decide)⟩,
    q', hq', hqw', hlo'.trans (by decide), ?_⟩, hcounted', hoverflow, ?_⟩
  · exact (hlast hqw').2.trans (by decide +kernel)
  · exact hfails (.inr hoverflow)

end DivisionMicrocode
