import DivisionMicrocode.Proofs.Events
import DivisionMicrocode.Proofs.LoopCounter
/-!
# Divisions on a clock that runs out

A division goes its way whatever the clock says, so the division of the same registers on a clock at
zero tells what it does on any other: the same microwords with the clock set forward, up to the end
or up to the first microword that the clock cannot count. The second is the only way to fail.

* `Path.later` — a path commutes with setting the clock forward;
* `run_of_path_of_le` — where a course stops whose path is too long for the clock;
* `divide_on_clock` — what a division does on any clock.
-/

namespace DivisionMicrocode

open ControlStore RegisterFile

def RegisterFile.later (r : RegisterFile) (n : Clocks) : RegisterFile :=
  { r with cycles := r.cycles + n }

def Course.later (c : Course) (n : Clocks) : Course where
  visited := c.visited.map (·.later n)
  final := c.final.later n
  ending := c.ending

/-- The microwords that a clock can still count. -/
def clockRoom (c : Clocks) : Nat := (2 ^ 64 - 1 - c.toNat) / 2

variable {r s t : RegisterFile} {i : Instruction} {visited : List RegisterFile}

/-! ## Setting the clock forward -/

theorem RegisterFile.pass_later (r : RegisterFile) (n : Clocks) (m : Microinstruction) :
    (r.later n).pass m = (r.pass m).later n := by
  simp only [pass, later, perform_withCycles]
  rw [BitVec.add_assoc, BitVec.add_comm n, ← BitVec.add_assoc]

theorem Path.later (p : Path r visited t) (n : Clocks) :
    Path (r.later n) (visited.map (·.later n)) (t.later n) := by
  induction p with
  | nil r => exact .nil (r.later n)
  | cons hi _ ih =>
      rw [List.map_cons]
      refine .cons hi ?_
      rw [pass_later]
      exact ih

theorem Course.result_later (c : Course) (n : Clocks) : (c.later n).result = c.result := by
  have hany : (c.visited.map (·.later n)).any (·.overflows) = c.visited.any (·.overflows) := by
    rw [List.any_map]
    rfl
  simp only [result, outcome, later, hany]
  rfl

/-! ## Parts of a path -/

theorem Path.take {k : Nat} (p : Path r visited t) (hs : visited[k]? = some s) :
    Path r (visited.take k) s := by
  induction p generalizing k with
  | nil => cases hs
  | @cons r t m visited hi p ih =>
      cases k with
      | zero =>
          obtain rfl := Option.some.inj hs
          exact .nil r
      | succ k => exact .cons hi (ih hs)

theorem Path.length_le_remaining (p : Path r visited t) : visited.length ≤ r.remaining := by
  induction p with
  | nil => exact Nat.zero_le _
  | @cons r t m visited hi _ ih =>
      have hlt : (r.pass m).remaining < r.remaining :=
        remaining_perform_lt (r := { r with cycles := r.cycles + clocksPerMicroword }) hi
      rw [List.length_cons]
      omega

theorem remaining_enter_le (r : RegisterFile) (i : Instruction) : (r.enter i).remaining ≤ 78 := by
  cases i with
  | divu => exact (by decide : 68 ≤ 78)
  | divs => exact Nat.le_refl 78

/-! ## Where the clock stops a course -/

theorem clockRoom_of_lt {c : Clocks} (h : c.toNat + 2 < 2 ^ 64) :
    clockRoom c = clockRoom (c + clocksPerMicroword) + 1 := by
  rw [clockRoom, clockRoom, toNat_add_clocksPerMicroword h]
  omega

theorem clockRoom_of_not_lt {c : Clocks} (h : ¬c.toNat + 2 < 2 ^ 64) : clockRoom c = 0 := by
  rw [clockRoom]
  omega

/-- A path that is too long for the clock is followed as far as the clock counts, and the next
microword still comes up. -/
theorem run_of_path_of_le (p : Path r visited t)
    (hclock : 2 ^ 64 ≤ r.cycles.toNat + 2 * visited.length) :
    ∃ s, visited[clockRoom r.cycles]? = some s ∧
      r.run =
        { visited := visited.take (clockRoom r.cycles + 1)
          final := s
          ending := .clockOverflow } := by
  induction p with
  | nil r =>
      have hlt := r.cycles.isLt
      rw [List.length_nil] at hclock
      omega
  | @cons r t m visited hi _ ih =>
      rw [List.length_cons] at hclock
      -- a microword that is counted takes one off the room of the clock, so the place where the path
      -- is cut moves along with it
      by_cases hcount : r.cycles.toNat + 2 < 2 ^ 64
      · have hnext : (r.pass m).cycles.toNat = r.cycles.toNat + 2 := by
          rw [cycles_pass, toNat_add_clocksPerMicroword hcount]
        obtain ⟨s, hs, hrun⟩ := ih (by omega)
        rw [cycles_pass] at hs hrun
        refine ⟨s, ?_, ?_⟩
        · rw [clockRoom_of_lt hcount, List.getElem?_cons_succ, hs]
        · rw [run_of_next?_eq_some (next?_eq_some_pass hi hcount), hrun, clockRoom_of_lt hcount]
          rfl
      · refine ⟨r, ?_, ?_⟩
        · rw [clockRoom_of_not_lt hcount, List.getElem?_cons_zero]
        · rw [run_of_next?_eq_none (next?_eq_none_of_not_lt hcount), halt, isTerminal_of_fetch hi,
            clockRoom_of_not_lt hcount]
          rfl

/-! ## Divisions -/

theorem exists_path_from_zero (r : RegisterFile) (i : Instruction) :
    ∃ visited t, Path ({ r with cycles := 0 }.enter i) visited t ∧
      t.controlState.isTerminal = true ∧
      2 * visited.length = i.clocks r.dividend r.divisor ∧
      { r with cycles := 0 }.divide i =
        { visited := visited, final := t, ending := .completed } := by
  obtain ⟨t, h⟩ := exists_completes { r with cycles := 0 } i
  obtain ⟨visited, p, hlabels⟩ := h.leads
  have hlength := p.length_le_remaining.trans (remaining_enter_le _ i)
  refine ⟨visited, t, p, h.isTerminal, ?_, run_eq_of_path p h.isTerminal ?_⟩
  · rw [clocks_eq, ← List.length_map (·.controlState), hlabels]
    rfl
  · have hzero : ({ r with cycles := 0 }.enter i).cycles.toNat = 0 := rfl
    omega

theorem enter_later (r : RegisterFile) (i : Instruction) :
    ({ r with cycles := 0 }.enter i).later r.cycles = r.enter i := by
  simp [later, enter]

theorem divide_of_lt (hclock : r.cycles.toNat + i.clocks r.dividend r.divisor < 2 ^ 64) :
    r.divide i = ({ r with cycles := 0 }.divide i).later r.cycles := by
  obtain ⟨visited, t, p, ht, hlength, hdivide⟩ := exists_path_from_zero r i
  have q := p.later r.cycles
  rw [enter_later] at q
  rw [hdivide, divide, run_eq_of_path q ht]
  · rfl
  · have hentry : (r.enter i).cycles = r.cycles := rfl
    rw [hentry, List.length_map]
    omega

theorem divide_of_le (hclock : 2 ^ 64 ≤ r.cycles.toNat + i.clocks r.dividend r.divisor) :
    ∃ s, ({ r with cycles := 0 }.divide i).visited[clockRoom r.cycles]? = some s ∧
      s.cycles = BitVec.ofNat 64 (2 * clockRoom r.cycles) ∧
      r.divide i =
        { visited := (({ r with cycles := 0 }.divide i).later r.cycles).visited.take
            (clockRoom r.cycles + 1)
          final := s.later r.cycles
          ending := .clockOverflow } := by
  obtain ⟨visited, t, p, ht, hlength, hdivide⟩ := exists_path_from_zero r i
  have hentry : (r.enter i).cycles = r.cycles := rfl
  have q := p.later r.cycles
  rw [enter_later] at q
  obtain ⟨s', hs', hrun⟩ := run_of_path_of_le q (by rw [hentry, List.length_map]; omega)
  rw [hentry, List.getElem?_map, Option.map_eq_some_iff] at hs'
  obtain ⟨s, hs, rfl⟩ := hs'
  rw [hdivide]
  refine ⟨s, hs, ?_, ?_⟩
  · have hcycles := (p.take hs).cycles_eq
    have hzero : ({ r with cycles := 0 }.enter i).cycles = 0 := rfl
    have hlt := (List.getElem?_eq_some_iff.1 hs).1
    rw [hcycles, hzero, List.length_take, Nat.min_eq_left hlt.le]
    exact BitVec.zero_add _
  · rw [divide, hrun, hentry]
    rfl

theorem isPrefix_visited (r : RegisterFile) (i : Instruction) :
    (r.divide i).visited <+: (({ r with cycles := 0 }.divide i).later r.cycles).visited := by
  by_cases hclock : r.cycles.toNat + i.clocks r.dividend r.divisor < 2 ^ 64
  · refine ⟨[], ?_⟩
    rw [List.append_nil, divide_of_lt hclock]
  · obtain ⟨_, -, -, hdivide⟩ := divide_of_le (Nat.not_lt.1 hclock)
    rw [hdivide]
    exact List.take_prefix _ _

theorem counted_from_zero (r : RegisterFile) (i : Instruction) :
    ({ r with cycles := 0 }.divide i).Counted := by
  obtain ⟨_, _, p, -, hlength, -⟩ := exists_path_from_zero r i
  have hle := p.length_le_remaining.trans (remaining_enter_le _ i)
  have hclock : 0 + i.clocks r.dividend r.divisor < 2 ^ 64 := by omega
  exact counted_divide_iff.2 hclock

/-- A microword that comes up belongs to the way of the division, even if the clock stops the
division before its end. -/
theorem controlState_mem_labels (hs : s ∈ (r.divide i).visited) :
    s.controlState ∈ i.labels r.dividend r.divisor := by
  obtain ⟨s₀, hs₀, rfl⟩ := List.mem_map.1 ((isPrefix_visited r i).subset hs)
  obtain ⟨t, h⟩ := exists_completes { r with cycles := 0 } i
  have hmem := List.mem_map_of_mem (f := (·.controlState)) hs₀
  rw [h.map_controlState_visited (counted_from_zero r i)] at hmem
  exact hmem

theorem length_visited_le (r : RegisterFile) (i : Instruction) :
    (r.divide i).visited.length ≤ 78 := by
  obtain ⟨visited, t, p, -, -, hdivide⟩ := exists_path_from_zero r i
  have hle := (isPrefix_visited r i).length_le
  rw [Course.later, List.length_map, hdivide] at hle
  exact hle.trans (p.length_le_remaining.trans (remaining_enter_le _ i))

theorem safe_of_mem_visited (hs : s ∈ (r.divide i).visited) :
    s.controlState.isTerminal = false ∧
      (s.controlState ∈ roundStarts → 1 ≤ s.counter.toNat ∧ s.counter.toNat ≤ 16) := by
  obtain ⟨visited, t, p, -, -, hdivide⟩ := exists_path_from_zero r i
  -- the clock plays no part in either, so the division from zero tells both
  obtain ⟨s₀, hs₀, rfl⟩ := List.mem_map.1 ((isPrefix_visited r i).subset hs)
  rw [hdivide] at hs₀
  have hentry : ({ r with cycles := 0 }.enter i).CountAllowed := by
    cases i <;> exact trivial
  have hterminal := p.isTerminal_of_mem hs₀
  have hcount := p.countAllowed_of_mem hentry hs₀
  exact ⟨hterminal, count_of_roundStarts hcount⟩

theorem result_eq_clockOverflow_iff :
    (r.divide i).result = .error .clockOverflow ↔
      2 ^ 64 ≤ r.cycles.toNat + i.clocks r.dividend r.divisor := by
  by_cases hclock : r.cycles.toNat + i.clocks r.dividend r.divisor < 2 ^ 64
  · obtain ⟨t, h⟩ := exists_completes r i
    rw [h.result_eq (counted_divide_iff.2 hclock)]
    exact iff_of_false nofun (Nat.not_le.2 hclock)
  · obtain ⟨s, -, -, hdivide⟩ := divide_of_le (Nat.not_lt.1 hclock)
    rw [hdivide]
    exact iff_of_true rfl (Nat.not_lt.1 hclock)

theorem chain_from_zero (r : RegisterFile) (i : Instruction) :
    let c := { r with cycles := 0 }.divide i
    c.ending = .completed ∧ c.visited.head? = some ({ r with cycles := 0 }.enter i) ∧
      (c.visited ++ [c.final]).IsChain Follows ∧ c.final.controlState.isTerminal = true := by
  intro c
  obtain ⟨visited, t, p, ht, -, hdivide⟩ := exists_path_from_zero r i
  have hlength := p.length_le_remaining.trans (remaining_enter_le _ i)
  have hzero : ({ r with cycles := 0 }.enter i).cycles.toNat = 0 := rfl
  obtain ⟨more, hmore, -⟩ := p.exists_cons ht (fetch_entry i)
  have hc : c = _ := hdivide
  rw [hc]
  refine ⟨rfl, ?_, p.isChain_follows (by omega), ht⟩
  rw [hmore, List.head?_cons]

/-- A division ends after at most 78 microwords, none of them terminal, and no round starts with
the counter at zero. It fails exactly if the clock cannot count all of its microwords, and then it
stops before the first that cannot be counted, after the microwords that the clock could count: its
registers are those that the division from a clock at zero has by then, and a collector has been
sent a step for each microword that has come up and no exit. If it does not fail, it and its
events differ from those of the division from zero in the clock only. -/
theorem divide_on_clock (r : RegisterFile) (i : Instruction) :
    let c := r.divide i
    let zero := { r with cycles := 0 }
    let c₀ := zero.divide i
    let k := (2 ^ 64 - 1 - r.cycles.toNat) / 2
    c.visited.length ≤ 78 ∧
      (∀ s ∈ c.visited, s.controlState.isTerminal = false ∧
        (s.controlState ∈ roundStarts → 1 ≤ s.counter.toNat ∧ s.counter.toNat ≤ 16)) ∧
      (c.result = .error .clockOverflow ↔
        2 ^ 64 - 1 < r.cycles.toNat + i.clocks r.dividend r.divisor) ∧
      (c₀.ending = .completed ∧ c₀.visited.head? = some (zero.enter i) ∧
        (c₀.visited ++ [c₀.final]).IsChain Follows) ∧
      (c.result = .error .clockOverflow →
        ∃ s, c₀.visited[k]? = some s ∧
          c.final = { s with cycles := BitVec.ofNat 64 (r.cycles.toNat + 2 * k) } ∧
          c.final.cycles.toNat = r.cycles.toNat + 2 * k ∧
          r.events i =
            (c₀.visited.take (k + 1)).map (fun s => .step (.ofRegisters (s.later r.cycles))) ∧
          (r.events i).length = k + 1) ∧
      (c.result ≠ .error .clockOverflow →
        c = c₀.later r.cycles ∧ c.result = c₀.result ∧
          c.final.controlState.isTerminal = true ∧
          r.events i = (c₀.later r.cycles).events) ∧
      ∀ j f,
        let w := r.divideObserved .divider i (j, f)
        w.result = c.result ∧ w.final = c.final ∧
          w.seen.1 = j.map ((r.events i).foldl Journal.record) := by
  intro c zero c₀ k
  obtain ⟨hending, hhead, hchain, hterminal⟩ := chain_from_zero r i
  have hlt := r.cycles.isLt
  have hfails : c.result = .error .clockOverflow ↔ _ := result_eq_clockOverflow_iff
  refine ⟨length_visited_le r i, fun s hs => safe_of_mem_visited hs, ?_,
    ⟨hending, hhead, hchain⟩, ?_, ?_, ?_⟩
  · rw [hfails]
    omega
  · intro hfailed
    obtain ⟨s, hs, hcycles, hdivide⟩ := divide_of_le (hfails.1 hfailed)
    have hc : c = _ := hdivide
    have hroom : r.cycles.toNat + 2 * k < 2 ^ 64 := by omega
    have hevents : r.events i =
        (c₀.visited.take (k + 1)).map (fun s => .step (.ofRegisters (s.later r.cycles))) := by
      rw [events_eq, hdivide, Course.events, Course.later, ← List.map_take, List.map_map]
      exact List.append_nil _
    have hfinal : c.final = { s with cycles := BitVec.ofNat 64 (r.cycles.toNat + 2 * k) } := by
      rw [hc, later, hcycles, BitVec.ofNat_add, BitVec.ofNat_toNat, BitVec.setWidth_eq,
        BitVec.add_comm]
      rfl
    refine ⟨s, hs, hfinal, ?_, hevents, ?_⟩
    · rw [hfinal]
      exact Nat.mod_eq_of_lt hroom
    · have hk := (List.getElem?_eq_some_iff.1 hs).1
      rw [hevents, List.length_map, List.length_take]
      exact Nat.min_eq_left hk
  · intro hcompleted
    have hclock : r.cycles.toNat + i.clocks r.dividend r.divisor < 2 ^ 64 :=
      Nat.not_le.1 fun h => hcompleted (hfails.2 h)
    have hc : c = c₀.later r.cycles := divide_of_lt hclock
    have hevents : r.events i = c.events := events_eq r i
    rw [hevents, hc]
    exact ⟨rfl, c₀.result_later r.cycles, hterminal, rfl⟩
  · intro j f w
    have hw : w = _ := divideObserved_eq .divider i r (j, f)
    exact ⟨congrArg Observed.result hw, congrArg Observed.final hw, seen_divider r i j f⟩

/-- One clock short of the last microword, and out of clocks in the middle of the rounds. -/
theorem divide_on_clock_cut_off :
    let r (cycles : Clocks) := staleRegisters 0x7654321F 0xA5A5 cycles
    let last := r (BitVec.ofNat 64 (2 ^ 64 - 100))
    let middle := r (BitVec.ofNat 64 (2 ^ 64 - 51))
    (last.divide .divu).result = .error .clockOverflow ∧ (last.events .divu).length = 50 ∧
      (last.divide .divu).final.cycles.toNat = 2 ^ 64 - 2 ∧
      (middle.divide .divu).result = .error .clockOverflow ∧
      (middle.events .divu).length = 26 ∧
      (middle.divide .divu).final.cycles.toNat = 2 ^ 64 - 1 := by
  intro r last middle
  obtain ⟨-, -, hfails, -, hstops, -⟩ := divide_on_clock last .divu
  obtain ⟨-, -, hfails', -, hstops', -⟩ := divide_on_clock middle .divu
  have hfailed := hfails.2 (by decide +kernel)
  have hfailed' := hfails'.2 (by decide +kernel)
  obtain ⟨_, -, -, hcycles, -, hlength⟩ := hstops hfailed
  obtain ⟨_, -, -, hcycles', -, hlength'⟩ := hstops' hfailed'
  exact ⟨hfailed, hlength.trans (by decide +kernel), hcycles.trans (by decide +kernel), hfailed',
    hlength'.trans (by decide +kernel), hcycles'.trans (by decide +kernel)⟩

end DivisionMicrocode
