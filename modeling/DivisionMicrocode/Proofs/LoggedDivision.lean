import DivisionMicrocode.Proofs.ClockOverflow
import DivisionMicrocode.Proofs.LogDelivery
import DivisionMicrocode.Proofs.Numerals
/-!
# Logged divisions

Whatever watches a division, and whatever is logged of it, it goes the same way. What a logger is
handed during a division shows only in what the logger makes of it, so the records are noted beside
the logging facility (`tapped`); forgetting them gives the facility as it is without them
(`watch_tapped_fst`), and the facility is always the one that has been handed what is noted
(`Noted.watch_tapped`). While the trace is wanted, the records are the lines of the very snapshots
that a collector is sent, with the summary behind them (`log_agrees_with_events`). The line of a
summary is read back word by word, so it shows all that the summary says (`line_injective`).
-/

namespace DivisionMicrocode

open RegisterFile Text

/-! ## The line of a summary -/

namespace Summary

/-- The words of the line of a summary. -/
def words (s : Summary) : List (List Char) :=
  [s.instruction.text.toList, Numeral.write 16 8 s.dividend.toNat, ['/'],
    Numeral.write 16 4 s.divisor.toNat ++ [':'], s.outcome.text.toList, "after".toList,
    Numeral.write 10 1 s.clocks, "cycles".toList]

theorem toList_line (s : Summary) : s.line.toList = [' '].intercalate s.words := by
  simp [line, words, List.intercalate_cons_cons]

theorem isWhiteSpace_of_mem_words (s : Summary) :
    ∀ w ∈ s.words, w ≠ [] ∧ ∀ c ∈ w, isWhiteSpace c = false := by
  have hliteral {w : List Char} (hne : w ≠ []) (h : w.all (!isWhiteSpace ·) = true) :
      w ≠ [] ∧ ∀ c ∈ w, isWhiteSpace c = false := ⟨hne, isWhiteSpace_of_all h⟩
  have hnumeral {radix : Nat} (hradix : 1 < radix) (hradix' : radix ≤ 16) (width n : Nat) :
      Numeral.write radix width n ≠ [] ∧
        ∀ c ∈ Numeral.write radix width n, isWhiteSpace c = false :=
    ⟨Numeral.write_ne_nil radix width n, Numeral.isWhiteSpace_of_mem_write hradix hradix'⟩
  intro w hw
  simp only [words, List.mem_cons, List.not_mem_nil, or_false] at hw
  rcases hw with rfl | rfl | rfl | rfl | rfl | rfl | rfl | rfl
  · cases s.instruction <;> exact hliteral (by decide) (by decide)
  · exact hnumeral (by decide) (by decide) 8 _
  · exact hliteral (by decide) (by decide)
  · refine ⟨List.append_ne_nil_of_right_ne_nil _ (List.cons_ne_nil _ _), ?_⟩
    exact List.forall_mem_append.2
      ⟨(hnumeral (by decide) (by decide) 4 _).2, isWhiteSpace_of_all (by decide)⟩
  · cases s.outcome <;> exact hliteral (by decide) (by decide)
  · exact hliteral (by decide) (by decide)
  · exact hnumeral (by decide) (by decide) 1 _
  · exact hliteral (by decide) (by decide)

theorem tokens_line (s : Summary) : tokens s.line.toList = s.words := by
  rw [toList_line, tokens_intercalate rfl, flatMap_tokens s.isWhiteSpace_of_mem_words]

theorem line_injective : Function.Injective line := by
  rintro ⟨i, a, d, o, n⟩ ⟨i', a', d', o', n'⟩ h
  have hwords : words ⟨i, a, d, o, n⟩ = words ⟨i', a', d', o', n'⟩ := by
    rw [← tokens_line, h, tokens_line]
  simp only [words, List.cons.injEq] at hwords
  obtain ⟨hi, ha, -, hd, ho, -, hn, -⟩ := hwords
  obtain rfl := Instruction.text_injective (String.toList_injective hi)
  obtain rfl := BitVec.eq_of_toNat_eq (Numeral.write_injective (by decide) (by decide) 8 ha)
  obtain rfl := BitVec.eq_of_toNat_eq
    (Numeral.write_injective (by decide) (by decide) 4 (List.append_cancel_right hd))
  obtain rfl := Outcome.text_injective (String.toList_injective ho)
  obtain rfl := Numeral.write_injective (by decide) (by decide) 1 hn
  rfl

end Summary

namespace Observer

variable {f : Log.Facility} {summary : RegisterFile → Outcome → Summary}

/-- The logging facility, with a note of every record that its logger is handed. -/
def tapped : Observer (Log.Facility × List Log.Record) where
  step s p :=
    if p.1.wants .trace "divider_state" then
      (p.1.submit (stepRecord s), p.2 ++ p.1.handed (stepRecord s))
    else
      p
  finish _ summary p :=
    (p.1.submit (summaryRecord summary), p.2 ++ p.1.handed (summaryRecord summary))

/-! ## The notes and the facility -/

theorem step_tapped_fst (s : Snapshot) (p : Log.Facility × List Log.Record) :
    (tapped.step s p).1 = log.step s p.1 := by
  unfold tapped log
  dsimp only
  split <;> rfl

theorem watchSteps_tapped_fst (visited : List RegisterFile)
    (p : Log.Facility × List Log.Record) :
    (tapped.watchSteps visited p).1 = log.watchSteps visited p.1 := by
  induction visited generalizing p with
  | nil => rfl
  | cons s visited ih =>
    apply (ih (tapped.step (.ofRegisters s) p)).trans
    rw [step_tapped_fst]
    rfl

/-- The notes do not change what becomes of the facility. -/
theorem watch_tapped_fst (summary : RegisterFile → Outcome → Summary) (c : Course)
    (result : Except Fault Outcome) (p : Log.Facility × List Log.Record) :
    (tapped.watch summary c result p).1 = log.watch summary c result p.1 := by
  cases result with
  | ok o =>
    exact congrArg (fun g : Log.Facility => g.submit (summaryRecord (summary c.final o)))
      (watchSteps_tapped_fst c.visited p)
  | error e => exact watchSteps_tapped_fst c.visited p

/-- The facility is the one that `f` becomes when its logger is handed the noted records. -/
def Noted (f : Log.Facility) (p : Log.Facility × List Log.Record) : Prop :=
  p.1 = p.2.foldl .deliver f

theorem Noted.submit {p : Log.Facility × List Log.Record} (h : Noted f p) (x : Log.Record) :
    Noted f (p.1.submit x, p.2 ++ p.1.handed x) := by
  rw [Noted, List.foldl_append, ← h, Log.Facility.submit_eq]

theorem Noted.step_tapped {p : Log.Facility × List Log.Record} (h : Noted f p) (s : Snapshot) :
    Noted f (tapped.step s p) := by
  unfold tapped
  dsimp only
  split
  case isTrue => exact h.submit _
  case isFalse => exact h

theorem Noted.watchSteps_tapped {p : Log.Facility × List Log.Record} (h : Noted f p)
    (visited : List RegisterFile) : Noted f (tapped.watchSteps visited p) := by
  induction visited generalizing p with
  | nil => exact h
  | cons s visited ih => exact ih (h.step_tapped _)

theorem Noted.watch_tapped {p : Log.Facility × List Log.Record} (h : Noted f p) (c : Course)
    (result : Except Fault Outcome) : Noted f (tapped.watch summary c result p) := by
  cases result with
  | ok o => exact (h.watchSteps_tapped c.visited).submit _
  | error e => exact h.watchSteps_tapped c.visited

/-! ## The records of a course -/

def stepRecords (visited : List RegisterFile) : List Log.Record :=
  visited.map fun s => stepRecord (.ofRegisters s)

theorem target_of_mem_stepRecords {visited : List RegisterFile} {x : Log.Record}
    (h : x ∈ stepRecords visited) : x.target = "divider_state" := by
  obtain ⟨s, -, rfl⟩ := List.mem_map.1 h
  rfl

theorem step_tapped_of_wants (h : f.wants .trace "divider_state" = true)
    (noted : List Log.Record) (s : Snapshot) :
    tapped.step s (f, noted) = (f.deliver (stepRecord s), noted ++ [stepRecord s]) := by
  have hhanded : f.handed (stepRecord s) = [stepRecord s] := Log.Facility.handed_of_wants h
  apply (if_pos h).trans
  rw [Log.Facility.submit_eq, hhanded]
  rfl

/-- While the trace is wanted, each microword is noted. -/
theorem watchSteps_tapped_of_wants (hsteady : f.Steady)
    (h : f.wants .trace "divider_state" = true) (noted : List Log.Record)
    (visited : List RegisterFile) :
    tapped.watchSteps visited (f, noted) =
      ((stepRecords visited).foldl .deliver f, noted ++ stepRecords visited) := by
  induction visited generalizing f noted with
  | nil => exact congrArg (Prod.mk f) (List.append_nil noted).symm
  | cons s visited ih =>
    let x := stepRecord (.ofRegisters s)
    -- a record that has been delivered does not stop the trace from being wanted
    have hwants : (f.deliver x).wants .trace "divider_state" = true :=
      (hsteady.wants_deliver x _ _).trans h
    rw [watchSteps, List.foldl_cons, step_tapped_of_wants h]
    apply (ih (hsteady.deliver x) hwants _).trans
    rw [List.append_assoc]
    rfl

def courseRecords (summary : RegisterFile → Outcome → Summary) (f : Log.Facility) (c : Course) :
    Except Fault Outcome → List Log.Record
  | .ok o => stepRecords c.visited ++ f.handed (summaryRecord (summary c.final o))
  | .error _ => stepRecords c.visited

theorem watch_tapped_of_wants (hsteady : f.Steady) (h : f.wants .trace "divider_state" = true)
    (c : Course) (result : Except Fault Outcome) :
    (tapped.watch summary c result (f, [])).2 = courseRecords summary f c result := by
  have hsteps := watchSteps_tapped_of_wants hsteady h [] c.visited
  rw [List.nil_append] at hsteps
  cases result with
  | error e => exact congrArg Prod.snd hsteps
  | ok o =>
    rw [watch, hsteps, courseRecords, ← Log.Facility.handed_foldl_deliver f]
    rfl

/-- The summary has a target of its own, so the records of the trace's target are those of the
steps. -/
theorem filter_courseRecords (summary : RegisterFile → Outcome → Summary) (f : Log.Facility)
    (c : Course) (result : Except Fault Outcome) :
    (courseRecords summary f c result).filter (·.target = "divider_state") =
      stepRecords c.visited := by
  have htrace : (stepRecords c.visited).filter (·.target = "divider_state") =
      stepRecords c.visited :=
    List.filter_eq_self.2 fun x hx => decide_eq_true (target_of_mem_stepRecords hx)
  cases result with
  | error e => rw [courseRecords, htrace]
  | ok o =>
    have hsummary : (f.handed (summaryRecord (summary c.final o))).filter
        (·.target = "divider_state") = [] := by
      refine List.filter_eq_nil_iff.2 fun x hx => ?_
      obtain rfl := Log.Facility.eq_of_mem_handed hx
      simp [summaryRecord]
    rw [courseRecords, List.filter_append, htrace, hsummary, List.append_nil]

end Observer

/-! ## Divisions -/

def Event.step? : Event → Option Snapshot
  | step s => some s
  | exit _ _ => none

theorem Course.filterMap_step?_events (c : Course) :
    c.events.filterMap Event.step? = c.visited.map .ofRegisters := by
  have hsteps : (c.visited.map fun s => Event.step (.ofRegisters s)).filterMap Event.step? =
      c.visited.map .ofRegisters := by
    rw [List.filterMap_map]
    exact congrFun List.filterMap_eq_map c.visited
  rw [Course.events, List.filterMap_append, hsteps]
  cases c.result <;> exact List.append_nil _

/-- What is said of a division that has come to its end tells its dividend on entry and the clocks
of this division alone, which are the difference of two counts of the clock. -/
theorem summary_divide {r : RegisterFile} {i : Instruction} {o : Outcome}
    (h : (r.divide i).result = .ok o) :
    r.summary i (r.divide i).final o =
        { instruction := i
          dividend := r.dividend
          divisor := r.divisor
          outcome := o
          clocks := i.clocks r.dividend r.divisor } ∧
      (r.divide i).final.cycles.toNat = r.cycles.toNat + i.clocks r.dividend r.divisor := by
  have hcounted : (r.divide i).Counted := by
    refine counted_divide_iff.2 (Nat.not_le.1 fun hle => ?_)
    cases h.symm.trans (result_eq_clockOverflow_iff.2 hle)
  have hcycles := toNat_cycles_divide hcounted
  obtain ⟨t, hcompletes⟩ := exists_completes r i
  have hdivisor : (r.divide i).final.divisor = r.divisor := by
    rw [hcompletes.final_eq hcounted, hcompletes.divisor]
  refine ⟨?_, hcycles⟩
  rw [RegisterFile.summary, hdivisor, hcycles, Nat.add_sub_cancel_left]

theorem seen_recorder_tapped (r : RegisterFile) (i : Instruction) (f : Log.Facility) :
    (r.divideObserved (.pair .recorder .tapped) i ([], (f, []))).seen =
      (r.events i,
        Observer.tapped.watch (r.summary i) (r.divide i) (r.divide i).result (f, [])) := by
  rw [divideObserved_eq, Observer.watch_pair, RegisterFile.events, divideObserved_eq]

theorem seen_divider_snd (r : RegisterFile) (i : Instruction) (j : Option Journal)
    (f : Log.Facility) :
    (r.divideObserved .divider i (j, f)).seen.2 =
      (r.divideObserved (.pair .recorder .tapped) i ([], (f, []))).seen.2.1 := by
  rw [divideObserved_eq, divideObserved_eq, Observer.divider, Observer.watch_pair,
    Observer.watch_pair]
  exact (Observer.watch_tapped_fst _ _ _ (f, [])).symm

/-- The records of the steps show the steps that a collector is sent. -/
theorem stepRecords_divide (r : RegisterFile) (i : Instruction) :
    Observer.stepRecords (r.divide i).visited =
      ((r.events i).filterMap Event.step?).map fun s => ⟨.trace, "divider_state", s.line⟩ := by
  rw [events_eq, Course.filterMap_step?_events, List.map_map]
  rfl

/-- Neither a journal nor a logger changes a division, whatever the logger is, and the logger is left
as the records make it that it has been handed; the project's own prints its backlog's lines of
them. While the trace is wanted, by a steady logger, journal and logger tell the same of the
division: the trace texts are the lines of the steps that a collector is sent, in the same order. If
the division comes to its end and its summary is wanted, one more record follows. Its text is that
of one summary alone, with the dividend on entry and the clocks of this division alone, which are
the difference of two counts of the clock. -/
theorem log_agrees_with_events (r : RegisterFile) (i : Instruction) (j : Option Journal)
    (f : Log.Facility) :
    let alone := r.divideObserved .divider i (none, {})
    let w := r.divideObserved .divider i (j, f)
    let told := (r.divideObserved (.pair .recorder .tapped) i ([], (f, []))).seen
    let events := told.1
    let records := told.2.2
    let steps := events.filterMap Event.step?
    let traces := steps.map fun s => (⟨.trace, "divider_state", s.line⟩ : Log.Record)
    let clocks := i.clocks r.dividend r.divisor
    (w.result = alone.result ∧ w.final = alone.final) ∧
      (w.result = (r.divide i).result ∧ w.final = (r.divide i).final) ∧
      events = r.events i ∧ w.seen = (j.map (events.foldl .record), told.2.1) ∧
      told.2.1 = records.foldl .deliver f ∧
      (∀ filter colored b, f.logger = some (.own filter colored b) →
        told.2.1.printed = f.printed ++ Log.Backlog.printed filter.accepts colored b records) ∧
      (f.Steady → f.wants .trace "divider_state" = true →
        (records.filter (·.target = "divider_state")).map (·.text) = steps.map (·.line) ∧
        (∀ e, w.result = .error e → records = traces) ∧
        ∀ o, w.result = .ok o → f.wants .debug "divider" = true →
          let text :=
            i.text ++ " " ++ String.ofList (Numeral.write 16 8 r.dividend.toNat) ++ " / " ++
              String.ofList (Numeral.write 16 4 r.divisor.toNat) ++ ": " ++ o.text ++ " after " ++
              String.ofList (Numeral.write 10 1 clocks) ++ " cycles"
          records = traces ++ [⟨.debug, "divider", text⟩] ∧
            ∀ x : Summary, x.line = text ↔
              x =
                { instruction := i
                  dividend := r.dividend
                  divisor := r.divisor
                  outcome := o
                  clocks := clocks }) ∧
      ∀ o, w.result = .ok o →
        r.cycles.toNat ≤ w.final.cycles.toNat ∧
          w.final.cycles.toNat - r.cycles.toNat = clocks := by
  intro alone w told events records steps traces clocks
  have htold : told = _ := seen_recorder_tapped r i f
  have hw : w = _ := divideObserved_eq .divider i r (j, f)
  have halone : alone = _ := divideObserved_eq .divider i r (none, {})
  have hresult : w.result = (r.divide i).result := congrArg Observed.result hw
  have hfinal : w.final = (r.divide i).final := congrArg Observed.final hw
  have hevents : events = r.events i := congrArg Prod.fst htold
  have htapped : told.2 =
      Observer.tapped.watch (r.summary i) (r.divide i) (r.divide i).result (f, []) :=
    congrArg Prod.snd htold
  have hfacility : told.2.1 = records.foldl .deliver f := by
    have hstart : Observer.Noted f (f, []) := rfl
    have hnoted : Observer.Noted f told.2 := by
      rw [htapped]
      exact hstart.watch_tapped _ _
    exact hnoted
  refine ⟨⟨?_, ?_⟩, ⟨hresult, hfinal⟩, hevents, ?_, hfacility, fun filter colored b hown => ?_,
    fun hsteady hwants => ?_, fun o ho => ?_⟩
  · exact hresult.trans (congrArg Observed.result halone).symm
  · exact hfinal.trans (congrArg Observed.final halone).symm
  · rw [hevents]
    exact Prod.ext (seen_divider r i j f) (seen_divider_snd r i j f)
  · rw [hfacility]
    exact Log.Facility.printed_foldl_deliver hown records
  · have hrecords : records =
        Observer.courseRecords (r.summary i) f (r.divide i) (r.divide i).result :=
      (congrArg Prod.snd htapped).trans (Observer.watch_tapped_of_wants hsteady hwants _ _)
    have htraces : Observer.stepRecords (r.divide i).visited = traces := by
      rw [stepRecords_divide, ← hevents]
    refine ⟨?_, fun e he => ?_, fun o ho hdebug => ⟨?_, fun x => ?_⟩⟩
    · rw [hrecords, Observer.filter_courseRecords, htraces, List.map_map]
      rfl
    · rw [hrecords, ← hresult, he, Observer.courseRecords, htraces]
    · have hsummary := (summary_divide (hresult.symm.trans ho)).1
      rw [hrecords, ← hresult, ho, Observer.courseRecords, htraces, hsummary,
        Log.Facility.handed_of_wants hdebug]
      rfl
    · exact Summary.line_injective.eq_iff' rfl
  · rw [hresult] at ho
    have hcycles := (summary_divide ho).2
    rw [hfinal]
    omega

/-- A division on a running clock that writes back over its dividend, and one that the clock stops,
both before the eyes of a journal and of an embedding program's logger; and the first of them before
the project's own logger. -/
theorem log_agrees_with_events_after_write_back :
    let r (cycles : Clocks) := staleRegisters 0x7654321F 0xA5A5 cycles
    let j : Journal := { enabled := true, filters := [.exit] }
    let f : Log.Facility := { threshold := .upTo .trace, logger := some .announcer }
    let w (cycles : Clocks) := (r cycles).divideObserved .divider .divu (some j, f)
    let records (cycles : Clocks) :=
      ((r cycles).divideObserved (.pair .recorder .tapped) .divu ([], (f, []))).seen.2.2
    let stopped : Clocks := BitVec.ofNat 64 (2 ^ 64 - 51)
    let filter : Log.Filter := { directives := [⟨none, .upTo .trace⟩], pattern := none }
    let own : Log.Facility :=
      { threshold := .upTo .trace, logger := some (.own filter false .empty) }
    f.Steady ∧ f.wants .trace "divider_state" = true ∧ f.wants .debug "divider" = true ∧
      ((w 1000).result = .ok .normal ∧ (w 1000).final.quotient ≠ (r 1000).quotient ∧
        (w 1000).final.cycles.toNat - 1000 = 100 ∧
        (records 1000).getLast?.map (·.text) =
          some "divu 7654321f / a5a5: Normal after 100 cycles") ∧
      ((w stopped).result = .error .clockOverflow ∧
        ∀ x ∈ records stopped, x.target = "divider_state") ∧
      own.Steady ∧ own.wants .trace "divider_state" = true ∧ own.wants .debug "divider" = true ∧
        ((r 1000).divideObserved .divider .divu (some j, own)).seen.2.printed.getLast? =
          some "D divu 7654321f / a5a5: Normal after 100 cycles" := by
  intro r j f w records stopped filter own
  have hsteady : f.Steady := fun l hl => Option.some.inj hl ▸ Log.Logger.steady_announcer
  have htrace : f.wants .trace "divider_state" = true := rfl
  have hdebug : f.wants .debug "divider" = true := rfl
  have hownSteady : own.Steady := fun l hl => Option.some.inj hl ▸ trivial
  have hownTrace : own.wants .trace "divider_state" = true := by decide
  have hownDebug : own.wants .debug "divider" = true := by decide
  have hcounted : ((r 1000).divide .divu).Counted := counted_divide_iff.2 (by decide +kernel)
  obtain ⟨t, hcompletes⟩ := exists_completes (r 1000) .divu
  have hnormal : ((r 1000).divide .divu).result = .ok .normal := by
    rw [hcompletes.result_eq hcounted]
    decide +kernel
  have hquotient : ((r 1000).divide .divu).final.quotient ≠ (r 1000).quotient := by
    rw [hcompletes.final_eq hcounted, hcompletes.quotient]
    decide +kernel
  have hoverflow : ((r stopped).divide .divu).result = .error .clockOverflow :=
    result_eq_clockOverflow_iff.2 (by decide +kernel)
  obtain ⟨-, ⟨hresult, hfinal⟩, -, -, -, -, hrecords, hclocks⟩ :=
    log_agrees_with_events (r 1000) .divu (some j) f
  obtain ⟨-, ⟨hstoppedResult, -⟩, -, -, -, -, hstoppedRecords, -⟩ :=
    log_agrees_with_events (r stopped) .divu (some j) f
  obtain ⟨-, ⟨hownResult, -⟩, -, hseen, -, hprinted, hownRecords, -⟩ :=
    log_agrees_with_events (r 1000) .divu (some j) own
  refine ⟨hsteady, htrace, hdebug, ⟨hresult.trans hnormal, hfinal ▸ hquotient, ?_, ?_⟩,
    ⟨hstoppedResult.trans hoverflow, ?_⟩, hownSteady, hownTrace, hownDebug, ?_⟩
  · exact (hclocks .normal (hresult.trans hnormal)).2.trans (by decide +kernel)
  · have hall : records 1000 = _ :=
      ((hrecords hsteady htrace).2.2 .normal (hresult.trans hnormal) hdebug).1
    rw [hall, List.getLast?_concat]
    decide +kernel
  · have hall : records stopped = _ :=
      (hstoppedRecords hsteady htrace).2.1 .clockOverflow (hstoppedResult.trans hoverflow)
    rw [hall]
    intro x hx
    obtain ⟨s, -, rfl⟩ := List.mem_map.1 hx
    rfl
  · have hall := ((hownRecords hownSteady hownTrace).2.2 .normal (hownResult.trans hnormal)
      hownDebug).1
    have hlines := hprinted filter false .empty rfl
    rw [hall, Log.Backlog.printed_concat, Log.Backlog.log_of_ne_trace (by decide) (by decide)]
      at hlines
    rw [congrArg Prod.snd hseen, hlines, ← List.append_assoc, ← List.append_assoc,
      List.getLast?_concat]
    decide +kernel

end DivisionMicrocode
