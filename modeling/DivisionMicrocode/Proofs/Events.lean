import DivisionMicrocode.Proofs.Clocks
import DivisionMicrocode.Proofs.ObservedCourse
import Mathlib.Data.List.Chain
/-!
# The events of a division

A division that the clock counts sends a step for each microword and one exit. The steps show the
registers as each microword takes them over from the one before (`Follows`), and the last of them
tells the outcome: each instruction has one microword that writes back, and no overflow passes
through it.
-/

namespace DivisionMicrocode

open ControlStore

/-- The registers `t` are those that the microword named by `s` leaves, two clocks later. -/
structure Follows (s t : RegisterFile) : Prop where
  performed : ∃ m, fetch s.controlState = some m ∧ t = s.pass m
  clock : t.cycles.toNat = s.cycles.toNat + 2

variable {r s t : RegisterFile} {visited : List RegisterFile}

/-! ## Steps -/

theorem Path.head?_append (p : Path r visited t) : (visited ++ [t]).head? = some r := by
  cases p <;> rfl

theorem Path.isTerminal_of_mem (p : Path r visited t) (hs : s ∈ visited) :
    s.controlState.isTerminal = false := by
  induction p with
  | nil => cases hs
  | cons hi _ ih =>
      rcases List.mem_cons.1 hs with rfl | hs
      · exact isTerminal_of_fetch hi
      · exact ih hs

theorem Path.isChain_follows (p : Path r visited t)
    (hclock : r.cycles.toNat + 2 * visited.length < 2 ^ 64) :
    (visited ++ [t]).IsChain Follows := by
  induction p with
  | nil r => exact .singleton r
  | @cons r t i visited hi p ih =>
      rw [List.length_cons] at hclock
      -- the addition is exact, since the clock has room for the whole path
      have hnext : (r.pass i).cycles.toNat = r.cycles.toNat + 2 := by
        rw [RegisterFile.cycles_pass, toNat_add_clocksPerMicroword (by omega)]
      have hrest := ih (by rw [hnext]; omega)
      rw [List.cons_append, List.isChain_cons]
      refine ⟨?_, hrest⟩
      intro s hs
      rw [p.head?_append] at hs
      obtain rfl := Option.mem_some.1 hs
      exact ⟨⟨i, hi, rfl⟩, hnext⟩

/-! ## The first and the last step -/

/-- The microword that branches on the divisor. -/
def Instruction.divisorTest : Instruction → Microword
  | divu => .unsigned .dvum2
  | divs => .signed .dvs03

/-- The microword that writes the quotient back. -/
def Instruction.writeBack : Instruction → Microword
  | divu => .unsigned .dvum0
  | divs => .exit .leaa2

/-- The last microword of a division with a given outcome. -/
def Instruction.lastLabel (i : Instruction) : Outcome → Microword
  | .normal => i.writeBack
  | .divisionByZero => i.divisorTest
  | .overflow => .exit .dvuma

theorem fetch_entry (i : Instruction) : fetch i.entry = some (distribute i.divisorTest) := by
  cases i <;> rfl

theorem lastLabel_eq_writeBack_iff (i : Instruction) (o : Outcome) :
    i.lastLabel o = i.writeBack ↔ o = .normal := by
  cases i <;> cases o <;> decide

theorem getLast?_unsignedLabels (dividend : Long) (divisor : Word) :
    (unsignedLabels dividend.toNat divisor.toNat).getLast? =
      some (Instruction.divu.lastLabel (unsignedResult dividend divisor).outcome) := by
  unfold unsignedLabels unsignedResult
  by_cases hd : divisor = 0
  · subst hd
    rfl
  · have hpos := (toNat_pos_iff divisor).2 hd
    by_cases hq : 0x10000 ≤ dividend.toNat / divisor.toNat
    · simp only [hd, hpos.ne', hq, if_true, if_false]
      rfl
    · have hfinish : (unsignedFinishLabels dividend.toNat divisor.toNat).getLast? =
          some (.unsigned .dvum0) := rfl
      simp only [hd, hpos.ne', hq, if_false]
      rw [List.getLast?_append, ← List.cons_append, List.getLast?_append, hfinish]
      rfl

theorem getLast?_signedLabels (dividend : Long) (divisor : Word) :
    (signedLabels dividend divisor).getLast? =
      some (Instruction.divs.lastLabel (signedResult dividend divisor).outcome) := by
  have hback : (writeBackLabels dividend.msb).getLast? = some (.exit .leaa2) := by
    cases dividend.msb <;> rfl
  have hlate : (lateOverflowLabels dividend.msb).getLast? = some (.exit .dvuma) := by
    cases dividend.msb <;> rfl
  unfold signedLabels signedResult
  dsimp only
  split_ifs
  · rfl
  · rw [List.getLast?_append]
    rfl
  · rw [List.getLast?_append, hback]
    rfl
  · rw [List.getLast?_append, hlate]
    rfl

theorem getLast?_labels (i : Instruction) (dividend : Long) (divisor : Word) :
    (i.labels dividend divisor).getLast? =
      some (i.lastLabel (i.result dividend divisor).outcome) := by
  cases i with
  | divu => exact getLast?_unsignedLabels dividend divisor
  | divs => exact getLast?_signedLabels dividend divisor

/-! ## All events -/

theorem events_of_result {i : Instruction} {o : Outcome} (h : (r.divide i).result = .ok o) :
    r.events i =
      (r.divide i).visited.map (fun s => .step (.ofRegisters s)) ++
        [.exit (.ofRegisters (r.divide i).final) o] := by
  rw [events_eq, Course.events, h]

/-- The events of a division are a step for each microword, which the collector is sent before the
microword is executed, and an exit, which shows the registers that are returned and the outcome. -/
theorem events_divide (r : RegisterFile) (i : Instruction) (hcounted : (r.divide i).Counted) :
    let c := r.divide i
    ∃ o, c.result = .ok o ∧
      r.events i =
        c.visited.map (fun s => .step (.ofRegisters s)) ++ [.exit (.ofRegisters c.final) o] ∧
      (∀ j f,
        let w := r.divideObserved .divider i (some j, f)
        w.result = .ok o ∧ w.final = c.final ∧
          w.seen.1 = some ((r.events i).foldl Journal.record j)) ∧
      2 * c.visited.length = i.clocks r.dividend r.divisor ∧
      c.visited.head? = some (r.enter i) ∧
      (c.visited ++ [c.final]).IsChain Follows ∧
      (∀ s ∈ c.visited, s.controlState.isTerminal = false) ∧
      c.final.controlState = .exit o.continuation ∧
      (o = .overflow ↔ .exit .dvuma ∈ c.visited.map (·.controlState)) ∧
      (o = .divisionByZero ↔ c.final.controlState = .exit .trap0) ∧
      (o = .normal ↔ (c.visited.map (·.controlState)).getLast? = some i.writeBack) := by
  intro c
  obtain ⟨t, h⟩ := exists_completes r i
  obtain ⟨visited, p, hlabels, hdivide⟩ := h.exists_divide_eq hcounted
  have hresult := h.result_eq hcounted
  have hvisited : c.visited = visited := congrArg Course.visited hdivide
  have hfinal : c.final = t := congrArg Course.final hdivide
  have hlength : 2 * visited.length = i.clocks r.dividend r.divisor := by
    rw [clocks_eq, ← hlabels, List.length_map]
  have hclock := counted_divide_iff.1 hcounted
  rw [← hlength] at hclock
  refine ⟨_, hresult, events_of_result hresult, ?_, ?_, ?_, ?_, ?_, ?_, ?_, ?_, ?_⟩
  · intro j f w
    have hw : w = _ := divideObserved_eq .divider i r (some j, f)
    exact ⟨(congrArg Observed.result hw).trans hresult, congrArg Observed.final hw,
      seen_divider_fst r i j f⟩
  · rw [hvisited, hlength]
  · obtain ⟨more, hmore, -⟩ := p.exists_cons h.isTerminal (fetch_entry i)
    rw [hvisited, hmore, List.head?_cons]
  · rw [hvisited, hfinal]
    exact p.isChain_follows hclock
  · rw [hvisited]
    intro s hs
    exact p.isTerminal_of_mem hs
  · rw [hfinal, h.controlState]
  · rw [hvisited, hlabels]
    exact h.overflows.symm
  · rw [hfinal, h.controlState]
    generalize (i.result r.dividend r.divisor).outcome = o
    cases o <;> decide
  · rw [hvisited, hlabels, getLast?_labels, Option.some_inj]
    exact (lastLabel_eq_writeBack_iff i _).symm

/-- A division that goes through all rounds, and one that the zero divisor ends before them. -/
theorem events_divide_through_all_rounds :
    let r := staleRegisters 0xFFFFFFFF 0x7FFF 0
    let s := staleRegisters 0x7654321F 0 0
    ((r.divide .divs).Counted ∧ (r.events .divs).length = 79 ∧
        ((r.divide .divs).visited.map (·.controlState)).getLast? = some (.exit .leaa2)) ∧
      (s.divide .divu).Counted ∧ (s.events .divu).length = 3 ∧
        (s.divide .divu).final.controlState = .exit .trap0 := by
  intro r s
  have hcounted : (r.divide .divs).Counted := counted_divide_iff.2 (by decide +kernel)
  have hcounted' : (s.divide .divu).Counted := counted_divide_iff.2 (by decide +kernel)
  obtain ⟨o, hresult, hevents, -, hlength, -, -, -, -, -, -, hnormal⟩ :=
    events_divide r .divs hcounted
  obtain ⟨o', hresult', hevents', -, hlength', -, -, -, -, -, hzero, -⟩ :=
    events_divide s .divu hcounted'
  have ho : o = .normal := by
    obtain ⟨_, h⟩ := exists_completes r .divs
    rw [h.result_eq hcounted] at hresult
    exact (Except.ok.inj hresult).symm.trans (by decide +kernel)
  have ho' : o' = .divisionByZero := by
    obtain ⟨_, h⟩ := exists_completes s .divu
    rw [h.result_eq hcounted'] at hresult'
    exact (Except.ok.inj hresult').symm.trans (by decide)
  have hclocks : Instruction.divs.clocks r.dividend r.divisor = 156 := by decide +kernel
  have hclocks' : Instruction.divu.clocks s.dividend s.divisor = 4 := by decide
  refine ⟨⟨hcounted, ?_, hnormal.1 ho⟩, hcounted', ?_, hzero.1 ho'⟩
  · rw [hevents, List.length_append, List.length_map, List.length_singleton]
    omega
  · rw [hevents', List.length_append, List.length_map, List.length_singleton]
    omega

end DivisionMicrocode
