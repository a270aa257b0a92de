import DivisionMicrocode.Arithmetic
import DivisionMicrocode.Proofs.Path
import DivisionMicrocode.Proofs.WordArithmetic
/-!
# Completed divisions

A path from the entry of a division to a terminal microword decides how the division ends, as long
as the clock counts it. The outcome is read off the path twice: an overflow by the label that all
overflows have in common, a zero divisor by the label at the end.
-/

namespace DivisionMicrocode

/-- The division `i` of the registers `r` goes through `labels` to the registers `t`, which hold the
result `x`. -/
structure Completes (r : RegisterFile) (i : Instruction) (x : DivisionResult)
    (labels : List Microword) (t : RegisterFile) : Prop where
  leads : Leads (r.enter i) labels t
  remainder : t.remainder = x.remainder
  quotient : t.quotient = x.quotient
  divisor : t.divisor = r.divisor
  controlState : t.controlState = .exit x.outcome.continuation
  overflows : .exit .dvuma ∈ labels ↔ x.outcome = .overflow

variable {r t : RegisterFile} {i : Instruction} {x : DivisionResult} {labels : List Microword}

theorem any_overflows_iff {visited : List RegisterFile} :
    visited.any (·.overflows) = true ↔ .exit .dvuma ∈ visited.map (·.controlState) := by
  simp only [List.any_eq_true, List.mem_map, RegisterFile.overflows, beq_iff_eq]

namespace Completes

/-- A division that does not write back what it has found. -/
theorem of_unchanged {o : Outcome} (l : Leads (r.enter i) labels t)
    (hhi : t.dividendHi = r.dividendHi) (hlo : t.dividendLo = r.dividendLo)
    (hdivisor : t.divisor = r.divisor) (hw : t.controlState = .exit o.continuation)
    (hoverflows : .exit .dvuma ∈ labels ↔ o = .overflow) :
    Completes r i (.unchanged r.dividend o) labels t := by
  refine ⟨l, ?_, ?_, hdivisor, hw, hoverflows⟩
  · exact hhi.trans r.high_dividend.symm
  · exact hlo.trans r.low_dividend.symm

theorem isTerminal (h : Completes r i x labels t) : t.controlState.isTerminal = true := by
  rw [h.controlState]
  exact Outcome.isTerminal_continuation x.outcome

/-- The clock counts the division if it counts as many microwords as there are labels. -/
theorem counted_iff (h : Completes r i x labels t) :
    (r.divide i).Counted ↔ r.cycles.toNat + 2 * labels.length < 2 ^ 64 := by
  have ht := h.isTerminal
  obtain ⟨visited, p, hlabels⟩ := h.leads
  rw [← hlabels, List.length_map]
  exact counted_run_iff p ht

/-- A division that the clock counts is the path. -/
theorem exists_divide_eq (h : Completes r i x labels t) (hcounted : (r.divide i).Counted) :
    ∃ visited, Path (r.enter i) visited t ∧ visited.map (·.controlState) = labels ∧
      r.divide i = { visited := visited, final := t, ending := .completed } := by
  have ht := h.isTerminal
  obtain ⟨visited, p, hlabels⟩ := h.leads
  exact ⟨visited, p, hlabels, run_eq_of_path p ht (lt_of_counted_run p ht hcounted)⟩

theorem map_controlState_visited (h : Completes r i x labels t) (hcounted : (r.divide i).Counted) :
    (r.divide i).visited.map (·.controlState) = labels := by
  obtain ⟨visited, -, hlabels, hdivide⟩ := h.exists_divide_eq hcounted
  rw [hdivide, hlabels]

theorem final_eq (h : Completes r i x labels t) (hcounted : (r.divide i).Counted) :
    (r.divide i).final = t := by
  obtain ⟨visited, -, -, hdivide⟩ := h.exists_divide_eq hcounted
  rw [hdivide]

theorem ending_eq (h : Completes r i x labels t) (hcounted : (r.divide i).Counted) :
    (r.divide i).ending = .completed := by
  obtain ⟨visited, -, -, hdivide⟩ := h.exists_divide_eq hcounted
  rw [hdivide]

theorem result_eq (h : Completes r i x labels t) (hcounted : (r.divide i).Counted) :
    (r.divide i).result = .ok x.outcome := by
  have hany : (r.divide i).visited.any (·.overflows) = true ↔ x.outcome = .overflow := by
    rw [any_overflows_iff, h.map_controlState_visited hcounted]
    exact h.overflows
  simp only [Course.result, h.ending_eq hcounted, Course.outcome, h.final_eq hcounted,
    RegisterFile.outcome, h.controlState, hany]
  cases x.outcome <;> simp [Outcome.continuation]

/-- The clock advances by the clocks of the microwords. -/
theorem toNat_cycles (h : Completes r i x labels t) (hcounted : (r.divide i).Counted) :
    (r.divide i).final.cycles.toNat = r.cycles.toNat + 2 * labels.length := by
  have hclock := h.counted_iff.1 hcounted
  have hentry : (r.enter i).cycles = r.cycles := rfl
  rw [h.final_eq hcounted, h.leads.cycles_eq, hentry, BitVec.toNat_add, BitVec.toNat_ofNat]
  omega

end Completes

end DivisionMicrocode
