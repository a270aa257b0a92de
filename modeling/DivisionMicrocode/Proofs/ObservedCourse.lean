import DivisionMicrocode.Observation
/-!
# Observed courses

An observed division hands its registers to the observer while it runs. Whoever watches, its result
and its last registers are those of the course (`divideObserved_eq`), and what the observer has seen
is a fold over the registers that the course has visited. A collector is an observer that is told
events only; a journal attached to a division records the events that any collector is sent
(`seen_divider_fst`).
-/

namespace DivisionMicrocode

open RegisterFile

universe u v

variable {σ : Type u} {τ : Type v} {r : RegisterFile} {i : Instruction} {c : Course}

/-! ## What is seen of a course -/

namespace Course

/-- The result of a course, if the common end of overflows may have come up before it. -/
def resultAfter (overflowed : Bool) (c : Course) : Except Fault Outcome :=
  match c.ending with
  | .completed => .ok (c.final.outcome (overflowed || c.visited.any (·.overflows)))
  | .clockOverflow => .error .clockOverflow

theorem resultAfter_cons (overflowed : Bool) (r : RegisterFile) (c : Course) :
    (c.cons r).resultAfter overflowed = c.resultAfter (overflowed || r.overflows) := by
  simp only [resultAfter, cons, List.any_cons, Bool.or_assoc]

end Course

namespace Observer

/-- What an observer has seen after some microwords. -/
def watchSteps (o : Observer σ) (visited : List RegisterFile) (seen : σ) : σ :=
  visited.foldl (fun seen s => o.step (.ofRegisters s) seen) seen

/-- What an observer has seen after a course with the given result. -/
def watch (o : Observer σ) (summary : RegisterFile → Outcome → Summary) (c : Course)
    (result : Except Fault Outcome) (seen : σ) : σ :=
  match result with
  | .ok outcome =>
    o.finish (.ofRegisters c.final) (summary c.final outcome) (o.watchSteps c.visited seen)
  | .error _ => o.watchSteps c.visited seen

end Observer

theorem runObserved_eq (o : Observer σ) (summary : RegisterFile → Outcome → Summary)
    (r : RegisterFile) (overflowed : Bool) (seen : σ) :
    r.runObserved o summary overflowed seen =
      { result := r.run.resultAfter overflowed
        final := r.run.final
        seen := o.watch summary r.run (r.run.resultAfter overflowed) seen } := by
  induction r, overflowed, seen using runObserved.induct o with
  | case1 r overflowed seen s hnext ih =>
      rw [runObserved, run_of_next?_eq_some hnext, Course.resultAfter_cons]
      split
      case h_1 s' hs' =>
        obtain rfl : s = s' := Option.some.inj (hnext.symm.trans hs')
        exact ih
      case h_2 hnone => cases hnext.symm.trans hnone
  | case2 r overflowed seen hnext hterminal =>
      rw [runObserved, run_of_next?_eq_none hnext, halt, if_pos hterminal]
      split
      case h_1 s hs => cases hnext.symm.trans hs
      case h_2 =>
        rw [if_pos hterminal]
        simp only [Course.resultAfter, List.any_nil, Bool.or_false]
        rfl
  | case3 r overflowed seen hnext hterminal =>
      rw [runObserved, run_of_next?_eq_none hnext, halt, if_neg hterminal]
      split
      case h_1 s hs => cases hnext.symm.trans hs
      case h_2 =>
        rw [if_neg hterminal]
        rfl

/-- What is said of a division that began with the registers `r`. -/
def RegisterFile.summary (r : RegisterFile) (i : Instruction) (final : RegisterFile)
    (outcome : Outcome) : Summary where
  instruction := i
  dividend := r.dividend
  divisor := final.divisor
  outcome := outcome
  clocks := final.cycles.toNat - r.cycles.toNat

/-- Watching changes neither the result nor the registers. -/
theorem divideObserved_eq (o : Observer σ) (i : Instruction) (r : RegisterFile) (seen : σ) :
    r.divideObserved o i seen =
      { result := (r.divide i).result
        final := (r.divide i).final
        seen := o.watch (r.summary i) (r.divide i) (r.divide i).result seen } := by
  exact runObserved_eq o (r.summary i) (r.enter i) false seen

/-! ## Events -/

/-- The events of a course. -/
def Course.events (c : Course) : List Event :=
  c.visited.map (fun s => .step (.ofRegisters s)) ++
    match c.result with
    | .ok o => [.exit (.ofRegisters c.final) o]
    | .error _ => []

namespace Observer

variable {summary : RegisterFile → Outcome → Summary}

/-- An observer that is told events only. -/
def collector (onEvent : Event → σ → σ) : Observer σ where
  step s := onEvent (.step s)
  finish s summary := onEvent (.exit s summary.outcome)

/-- The collector that keeps all events. -/
def recorder : Observer (List Event) := collector fun e es => es ++ [e]

@[simp] theorem finish_collector (onEvent : Event → σ → σ) (s : Snapshot) (x : Summary) (seen : σ) :
    (collector onEvent).finish s x seen = onEvent (.exit s x.outcome) seen := rfl

theorem watch_collector (onEvent : Event → σ → σ)
    (hsummary : ∀ final outcome, (summary final outcome).outcome = outcome) (c : Course)
    (seen : σ) :
    (collector onEvent).watch summary c c.result seen =
      c.events.foldl (fun seen e => onEvent e seen) seen := by
  rw [Course.events, List.foldl_append, List.foldl_map]
  cases c.result with
  | ok o =>
      simp only [watch, finish_collector, hsummary, List.foldl_cons, List.foldl_nil]
      rfl
  | error e => rfl

theorem watchSteps_pair (a : Observer σ) (b : Observer τ) (visited : List RegisterFile) (x : σ)
    (y : τ) :
    (a.pair b).watchSteps visited (x, y) = (a.watchSteps visited x, b.watchSteps visited y) := by
  induction visited generalizing x y with
  | nil => rfl
  | cons s visited ih => exact ih _ _

theorem watch_pair (a : Observer σ) (b : Observer τ) (c : Course) (result : Except Fault Outcome)
    (x : σ) (y : τ) :
    (a.pair b).watch summary c result (x, y) =
      (a.watch summary c result x, b.watch summary c result y) := by
  cases result with
  | ok o =>
      rw [watch, watchSteps_pair]
      rfl
  | error e => exact watchSteps_pair a b c.visited x y

theorem watchSteps_optional (a : Observer σ) (visited : List RegisterFile) (x : Option σ) :
    a.optional.watchSteps visited x = x.map (a.watchSteps visited) := by
  induction visited generalizing x with
  | nil => cases x <;> rfl
  | cons s visited ih => exact (ih _).trans (Option.map_map _ _ x)

theorem watch_optional (a : Observer σ) (c : Course) (result : Except Fault Outcome)
    (x : Option σ) :
    a.optional.watch summary c result x = x.map (a.watch summary c result) := by
  cases result with
  | ok o =>
      rw [watch, watchSteps_optional]
      exact Option.map_map _ _ x
  | error e => exact watchSteps_optional a c.visited x

end Observer

/-- The events that a division sends to a collector. -/
def RegisterFile.events (r : RegisterFile) (i : Instruction) : List Event :=
  (r.divideObserved .recorder i []).seen

theorem events_eq (r : RegisterFile) (i : Instruction) : r.events i = (r.divide i).events := by
  have happend (es fs : List Event) : fs.foldl (fun es e => es ++ [e]) es = es ++ fs := by
    induction fs generalizing es with
    | nil => simp
    | cons e fs ih => simp [ih]
  rw [events, divideObserved_eq]
  apply (Observer.watch_collector _ (fun _ _ => rfl) _ _).trans
  rw [happend, List.nil_append]

/-- A journal that is attached to a division records its events, if there is one. -/
theorem seen_divider (r : RegisterFile) (i : Instruction) (j : Option Journal) (f : Log.Facility) :
    (r.divideObserved .divider i (j, f)).seen.1 = j.map ((r.events i).foldl .record) := by
  have hjournal (j : Journal) :
      Observer.journal.watch (r.summary i) (r.divide i) (r.divide i).result j =
        (r.events i).foldl .record j := by
    rw [events_eq]
    have hsummary (final : RegisterFile) (outcome : Outcome) :
        (r.summary i final outcome).outcome = outcome := rfl
    exact Observer.watch_collector (fun e j => j.record e) hsummary (r.divide i) j
  rw [divideObserved_eq, Observer.divider, Observer.watch_pair, Observer.watch_optional]
  exact congrArg j.map (funext hjournal)

theorem seen_divider_fst (r : RegisterFile) (i : Instruction) (j : Journal) (f : Log.Facility) :
    (r.divideObserved .divider i (some j, f)).seen.1 = some ((r.events i).foldl .record j) :=
  seen_divider r i (some j) f

end DivisionMicrocode
