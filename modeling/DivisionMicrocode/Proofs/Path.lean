import DivisionMicrocode.Course
import Mathlib.Tactic.Ring
/-!
# Paths through the control store

A course stops where the clock cannot count on, but what a microword does to the other registers
does not depend on the clock. So a division is followed first on a clock that wraps around, where
only a terminal microword ends it: `Path r visited t` says that the registers `r` become `t` by way
of the registers `visited`. A path that ends at a terminal microword is the course of its first
registers as long as the clock counts all of its microwords (`run_eq_of_path`), and its length alone
decides whether it does (`counted_run_iff`).
-/

namespace DivisionMicrocode

open ControlStore RegisterFile

/-- The registers after a microinstruction, its clocks counted on a clock that wraps around. -/
def RegisterFile.pass (r : RegisterFile) (i : Microinstruction) : RegisterFile :=
  { r with cycles := r.cycles + clocksPerMicroword }.perform i

/-- The microwords from some registers on, with the registers before each of them. -/
inductive Path : RegisterFile → List RegisterFile → RegisterFile → Prop
  | nil (r : RegisterFile) : Path r [] r
  | cons {r t : RegisterFile} {i : Microinstruction} {visited : List RegisterFile}
      (h : fetch r.controlState = some i) (p : Path (r.pass i) visited t) :
      Path r (r :: visited) t

/-- The clock has counted every microword that has come up. -/
def Course.Counted (c : Course) : Prop :=
  ∀ s ∈ c.visited, s.cycles.uaddOverflow clocksPerMicroword = false

variable {r s t : RegisterFile} {visited more : List RegisterFile}

/-! ## What every microinstruction does -/

theorem RegisterFile.read_withCycles (r : RegisterFile) (c : Clocks) (x : WordRegister) :
    { r with cycles := c }.read x = r.read x := by
  cases x <;> rfl

theorem RegisterFile.foldl_afterMove_withCycles (r : RegisterFile) (c : Clocks)
    (ms : List (WordRegister × WordRegister)) :
    ms.foldl afterMove { r with cycles := c } = { ms.foldl afterMove r with cycles := c } := by
  have hmove (q : RegisterFile) (m : WordRegister × WordRegister) :
      { q with cycles := c }.afterMove m = { q.afterMove m with cycles := c } := by
    obtain ⟨x, y⟩ := m
    simp only [afterMove, read_withCycles]
    cases x <;> rfl
  induction ms generalizing r with
  | nil => rfl
  | cons m ms ih => rw [List.foldl_cons, List.foldl_cons, hmove, ih]

theorem RegisterFile.issue?_withCycles (r : RegisterFile) (c : Clocks)
    (op : Option (AluOp Operand)) :
    { r with cycles := c }.issue? op = ((r.issue? op).1, { (r.issue? op).2 with cycles := c }) := by
  have hoperand : { r with cycles := c }.operand = r.operand := by
    funext x
    cases x with
    | register x => exact read_withCycles r c x
    | constant value => rfl
  rcases op with _ | op
  · rfl
  · simp only [issue?, hoperand]
    cases op <;> rfl

/-- A microinstruction neither reads nor changes the clock. -/
theorem RegisterFile.perform_withCycles (r : RegisterFile) (c : Clocks) (i : Microinstruction) :
    { r with cycles := c }.perform i = { r.perform i with cycles := c } := by
  have haddress : { r with cycles := c }.afterAddress i.address =
      { r.afterAddress i.address with cycles := c } := by
    cases i.address <;> rfl
  unfold perform
  simp only [haddress, foldl_afterMove_withCycles, issue?_withCycles]

@[simp] theorem RegisterFile.cycles_pass (r : RegisterFile) (i : Microinstruction) :
    (r.pass i).cycles = r.cycles + clocksPerMicroword := by
  rw [pass, perform_withCycles]

theorem RegisterFile.controlState_pass (r : RegisterFile) (i : Microinstruction) :
    (r.pass i).controlState = i.branch.target r.flags (r.afterAddress i.address).counter := by
  rw [pass, controlState_perform]
  cases i.address <;> rfl

theorem RegisterFile.controlState_pass_test (r : RegisterFile) {i : Microinstruction}
    {c : Condition} {yes no : Microword} (hi : i.branch = .test c (.goto yes) (.goto no)) :
    (r.pass i).controlState =
      if c.holds r.flags (r.afterAddress i.address).counter then yes else no := by
  rw [controlState_pass, hi]
  rfl

/-! ## Paths -/

theorem Path.append (p : Path r visited s) (q : Path s more t) : Path r (visited ++ more) t := by
  induction p with
  | nil => exact q
  | cons h _ ih => exact .cons h (ih q)

/-- What holds at the start and is preserved by every microword holds all the way. -/
theorem Path.forall_mem {P : RegisterFile → Prop}
    (hpass : ∀ s i, fetch s.controlState = some i → P s → P (s.pass i)) (p : Path r visited t)
    (h : P r) : ∀ s ∈ visited ++ [t], P s := by
  induction p with
  | nil r =>
      intro s hs
      obtain rfl := List.mem_singleton.1 hs
      exact h
  | @cons r t i visited hi _ ih =>
      intro s hs
      rcases List.mem_cons.1 hs with rfl | hs
      · exact h
      · exact ih (hpass r i hi h) s hs

/-- The rest of a path, from registers that it goes through. -/
theorem Path.exists_of_mem (p : Path r visited t) (hs : s ∈ visited) :
    ∃ more, Path s (s :: more) t := by
  induction p with
  | nil => cases hs
  | cons hi q ih =>
      rcases List.mem_cons.1 hs with rfl | hs
      · exact ⟨_, .cons hi q⟩
      · exact ih hs

/-- Every microword takes the same time. -/
theorem Path.cycles_eq (p : Path r visited t) :
    t.cycles = r.cycles + BitVec.ofNat 64 (2 * visited.length) := by
  induction p with
  | nil => simp
  | @cons r t i visited h _ ih =>
      rw [ih, cycles_pass, List.length_cons, Nat.mul_succ, Nat.add_comm _ 2, BitVec.ofNat_add,
        BitVec.add_assoc]
      rfl

/-! ## Paths by their labels -/

/-- The registers `r` become `t` by way of the microwords with the given labels. -/
def Leads (r : RegisterFile) (labels : List Microword) (t : RegisterFile) : Prop :=
  ∃ visited, Path r visited t ∧ visited.map (·.controlState) = labels

namespace Leads

variable {labels following : List Microword}

theorem nil (r : RegisterFile) : Leads r [] r := by
  exact ⟨[], .nil r, rfl⟩

theorem cons {w : Microword} {i : Microinstruction} (hw : r.controlState = w)
    (hi : fetch w = some i) (l : Leads (r.pass i) labels t) : Leads r (w :: labels) t := by
  obtain ⟨visited, p, rfl⟩ := l
  subst hw
  exact ⟨r :: visited, .cons hi p, rfl⟩

theorem append (l : Leads r labels s) (m : Leads s following t) :
    Leads r (labels ++ following) t := by
  obtain ⟨visited, p, rfl⟩ := l
  obtain ⟨more, q, rfl⟩ := m
  exact ⟨visited ++ more, p.append q, List.map_append⟩

theorem cycles_eq (l : Leads r labels t) :
    t.cycles = r.cycles + BitVec.ofNat 64 (2 * labels.length) := by
  obtain ⟨visited, p, rfl⟩ := l
  rw [p.cycles_eq, List.length_map]

end Leads

/-! ## Paths whatever the clock says -/

/-- The registers `r` become `t`, the clock apart, by way of the microwords with the given
labels. -/
def Reaches (r : RegisterFile) (labels : List Microword) (t : RegisterFile) : Prop :=
  ∃ c, Leads r labels { t with cycles := c }

namespace Reaches

variable {labels following : List Microword}

theorem of_eq (l : Leads r labels s) (h : s = { t with cycles := s.cycles }) :
    Reaches r labels t := by
  refine ⟨s.cycles, ?_⟩
  rw [← h]
  exact l

theorem append (m : Reaches r labels s)
    (h : ∀ c, Reaches { s with cycles := c } following t) : Reaches r (labels ++ following) t := by
  obtain ⟨c, l⟩ := m
  obtain ⟨c', l'⟩ := h c
  exact ⟨c', l.append l'⟩

end Reaches

/-! ## The clock -/

theorem uaddOverflow_clocksPerMicroword_iff (x : Clocks) :
    x.uaddOverflow clocksPerMicroword = false ↔ x.toNat + 2 < 2 ^ 64 := by
  have htwo : clocksPerMicroword.toNat = 2 := rfl
  unfold BitVec.uaddOverflow
  rw [decide_eq_false_iff_not, htwo]
  omega

theorem toNat_add_clocksPerMicroword {x : Clocks} (h : x.toNat + 2 < 2 ^ 64) :
    (x + clocksPerMicroword).toNat = x.toNat + 2 := by
  have htwo : clocksPerMicroword.toNat = 2 := rfl
  rw [BitVec.toNat_add, htwo, Nat.mod_eq_of_lt h]

theorem next?_eq_some_pass {i : Microinstruction} (hi : fetch r.controlState = some i)
    (hclock : r.cycles.toNat + 2 < 2 ^ 64) : r.next? = some (r.pass i) := by
  exact next?_eq_some_iff.2 ⟨i, hi, (uaddOverflow_clocksPerMicroword_iff _).2 hclock, rfl⟩

theorem next?_eq_none_of_not_lt (hclock : ¬r.cycles.toNat + 2 < 2 ^ 64) : r.next? = none := by
  rw [Option.eq_none_iff_forall_ne_some]
  intro s hs
  obtain ⟨i, -, hcount, -⟩ := next?_eq_some_iff.1 hs
  exact hclock ((uaddOverflow_clocksPerMicroword_iff _).1 hcount)

theorem run_of_isTerminal (ht : r.controlState.isTerminal = true) :
    r.run = { visited := [], final := r, ending := .completed } := by
  have hfetch := (fetch_eq_none_iff r.controlState).2 ht
  have hnext : r.next? = none := by
    unfold next?
    rw [hfetch]
    rfl
  rw [run_of_next?_eq_none hnext, halt, if_pos ht]

theorem isTerminal_of_fetch {w : Microword} {i : Microinstruction} (hi : fetch w = some i) :
    w.isTerminal = false := by
  rw [Bool.eq_false_iff]
  intro hw
  rw [(fetch_eq_none_iff w).2 hw] at hi
  cases hi

theorem Path.eq_of_isTerminal (p : Path r visited t) (hr : r.controlState.isTerminal = true) :
    t = r := by
  cases p with
  | nil => rfl
  | cons hi _ =>
      rw [isTerminal_of_fetch hi] at hr
      cases hr

/-- A path to a terminal microword goes on from any other. -/
theorem Path.exists_cons {i : Microinstruction} (p : Path r visited t)
    (ht : t.controlState.isTerminal = true) (hi : fetch r.controlState = some i) :
    ∃ more, visited = r :: more ∧ Path (r.pass i) more t := by
  cases p with
  | nil =>
      rw [isTerminal_of_fetch hi] at ht
      cases ht
  | cons hi' q =>
      obtain rfl := Option.some.inj (hi'.symm.trans hi)
      exact ⟨_, rfl, q⟩

/-- A path to a terminal microword is a course if the clock can count it. -/
theorem run_eq_of_path (p : Path r visited t) (ht : t.controlState.isTerminal = true)
    (hclock : r.cycles.toNat + 2 * visited.length < 2 ^ 64) :
    r.run = { visited := visited, final := t, ending := .completed } := by
  induction p with
  | nil => exact run_of_isTerminal ht
  | @cons r t i visited hi _ ih =>
      rw [List.length_cons] at hclock
      have hcount : r.cycles.toNat + 2 < 2 ^ 64 := by omega
      rw [run_of_next?_eq_some (next?_eq_some_pass hi hcount), ih ht, Course.cons]
      rw [cycles_pass, toNat_add_clocksPerMicroword hcount]
      omega

theorem lt_of_counted_run (p : Path r visited t) (ht : t.controlState.isTerminal = true)
    (hcounted : r.run.Counted) : r.cycles.toNat + 2 * visited.length < 2 ^ 64 := by
  induction p with
  | nil r => simpa using r.cycles.isLt
  | @cons r t i visited hi _ ih =>
      by_cases hcount : r.cycles.toNat + 2 < 2 ^ 64
      · rw [run_of_next?_eq_some (next?_eq_some_pass hi hcount)] at hcounted
        have hrest := ih ht fun s hs => hcounted s (List.mem_cons_of_mem r hs)
        rw [cycles_pass, toNat_add_clocksPerMicroword hcount] at hrest
        rw [List.length_cons]
        omega
      · -- the microword that the clock cannot count has come up all the same
        rw [run_of_next?_eq_none (next?_eq_none_of_not_lt hcount), halt,
          isTerminal_of_fetch hi] at hcounted
        have hfirst := hcounted r (List.mem_singleton.2 rfl)
        exact absurd ((uaddOverflow_clocksPerMicroword_iff _).1 hfirst) hcount

theorem cycles_lt_of_mem_visited (p : Path r visited t)
    (hclock : r.cycles.toNat + 2 * visited.length < 2 ^ 64) (hs : s ∈ visited) :
    s.cycles.toNat + 2 < 2 ^ 64 := by
  induction p with
  | nil => cases hs
  | @cons r t i visited hi _ ih =>
      rw [List.length_cons] at hclock
      rcases List.mem_cons.1 hs with rfl | hs
      · omega
      · apply ih _ hs
        rw [cycles_pass, toNat_add_clocksPerMicroword (by omega)]
        omega

/-- Whether the clock counts a course depends on its start and on the length of the path only. -/
theorem counted_run_iff (p : Path r visited t) (ht : t.controlState.isTerminal = true) :
    r.run.Counted ↔ r.cycles.toNat + 2 * visited.length < 2 ^ 64 := by
  refine ⟨lt_of_counted_run p ht, fun hclock => ?_⟩
  rw [run_eq_of_path p ht hclock]
  intro s hs
  exact (uaddOverflow_clocksPerMicroword_iff _).2 (cycles_lt_of_mem_visited p hclock hs)

end DivisionMicrocode
