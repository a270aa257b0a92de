import DivisionMicrocode.Proofs.ObservedCourse
import Mathlib.Data.List.DropRight
import Mathlib.Data.List.Forall2
/-!
# The history of a journal

Events come to a journal one by one or from whole divisions, while it is switched on and off and its
filters are replaced. What it holds in the end does not depend on how it got there: it is the last
of the events that were wanted when they arrived (`events_acts`). `wanted` says which these are by
the settings in force at each arrival, without a journal.
-/

namespace DivisionMicrocode

/-! ## Filters -/

/-- Which events a filter stands for. -/
inductive EventFilter.Selects : EventFilter → Event → Prop
  | any (e : Event) : Selects .any e
  | step {ws : List Microword} {s : Snapshot} (h : s.microword ∈ ws) :
      Selects (.microwords ws) (.step s)
  | exit (s : Snapshot) (o : Outcome) : Selects .exit (.exit s o)

theorem EventFilter.accepts_iff {f : EventFilter} {e : Event} :
    f.accepts e = true ↔ f.Selects e := by
  constructor
  · intro h
    cases f with
    | any => exact .any e
    | microwords ws =>
      cases e with
      | step s => exact .step (List.contains_iff_mem.1 h)
      | exit s o => exact nomatch h
    | exit =>
      cases e with
      | step s => exact nomatch h
      | exit s o => exact .exit s o
  · rintro (_ | h | _)
    · rfl
    · exact List.contains_iff_mem.2 h
    · rfl

instance (f : EventFilter) (e : Event) : Decidable (f.Selects e) :=
  decidable_of_iff (f.accepts e = true) EventFilter.accepts_iff

theorem Journal.keeps_iff {j : Journal} {e : Event} :
    j.keeps e = true ↔ j.enabled = true ∧ ∃ f ∈ j.filters, f.Selects e := by
  simp only [Journal.keeps, Bool.and_eq_true, List.any_eq_true, EventFilter.accepts_iff]

/-! ## What can happen to a journal -/

inductive JournalAction where
  /-- An event is sent to the journal. -/
  | event (e : Event)
  /-- A division is watched by the journal, beside a logging facility. -/
  | division (r : RegisterFile) (i : Instruction) (log : Log.Facility)
  | error (message : String)
  | enable (on : Bool)
  | select (filters : List EventFilter)

namespace JournalAction

def events : JournalAction → List Event
  | event e => [e]
  | division r i _ => r.events i
  | error _ | enable _ | select _ => []

def message? : JournalAction → Option String
  | error message => some message
  | event _ | division _ _ _ | enable _ | select _ => none

/-- Whether the journal is switched on or off, if it is. -/
def enabled? : JournalAction → Option Bool
  | enable on => some on
  | event _ | division _ _ _ | error _ | select _ => none

/-- The filters that replace those before, if there are any. -/
def filters? : JournalAction → Option (List EventFilter)
  | select filters => some filters
  | event _ | division _ _ _ | error _ | enable _ => none

/-- Two actions that differ at most in the order and the repetition of filters. -/
inductive Alike : JournalAction → JournalAction → Prop
  | same (a : JournalAction) : Alike a a
  | select {filters filters' : List EventFilter} (h : ∀ f, f ∈ filters ↔ f ∈ filters') :
      Alike (.select filters) (.select filters')

end JournalAction

/-- A setting after some actions: as the last of them left it that changed it. -/
def inForce {α : Type} (setting? : JournalAction → Option α) (initial : α)
    (before : List JournalAction) : α :=
  (before.filterMap setting?).getLast?.getD initial

/-- The events of some actions that arrive while the journal is switched on and that a filter then
in force stands for, if other actions have come before. -/
def wanted (enabled : Bool) (filters : List EventFilter) (before : List JournalAction) :
    List JournalAction → List Event
  | [] => []
  | a :: as =>
    a.events.filter (fun e =>
        inForce JournalAction.enabled? enabled before = true ∧
          ∃ f ∈ inForce JournalAction.filters? filters before, f.Selects e) ++
      wanted enabled filters (before ++ [a]) as

namespace Journal

def act (j : Journal) : JournalAction → Journal
  | .event e => j.record e
  | .division r i log => (r.divideObserved .divider i (some j, log)).seen.1.getD j
  | .error message => j.reportError message
  | .enable on => { j with enabled := on }
  | .select filters => { j with filters := filters }

def acts (j : Journal) (as : List JournalAction) : Journal := as.foldl act j

variable {j k : Journal} {a b : JournalAction} {as bs before : List JournalAction}
  {enabled : Bool} {filters : List EventFilter}

/-! ## One action -/

theorem foldl_record (j : Journal) (es : List Event) :
    es.foldl record j = { j with log := (es.filter j.keeps).foldl .push j.log } := by
  induction es generalizing j with
  | nil => rfl
  | cons e es ih =>
    rw [List.foldl_cons, ih, record, List.filter_cons]
    split <;> rfl

/-- An action pushes the events that are kept, reports its error, and makes its settings. -/
theorem act_eq (j : Journal) (a : JournalAction) :
    j.act a =
      { enabled := a.enabled?.getD j.enabled
        filters := a.filters?.getD j.filters
        log := (a.events.filter j.keeps).foldl .push j.log
        errors := j.errors ++ a.message?.toList } := by
  have hrecord (es : List Event) :
      es.foldl record j =
        { enabled := j.enabled
          filters := j.filters
          log := (es.filter j.keeps).foldl .push j.log
          errors := j.errors ++ [] } := by
    rw [foldl_record, List.append_nil]
  cases a with
  | event e => exact hrecord [e]
  | division r i log =>
    rw [act, seen_divider_fst]
    exact hrecord (r.events i)
  | error message => rfl
  | enable on =>
    exact congrArg (Journal.mk on j.filters j.log) (List.append_nil j.errors).symm
  | select filters =>
    exact congrArg (Journal.mk j.enabled filters j.log) (List.append_nil j.errors).symm

theorem inForce_concat {α : Type} (setting? : JournalAction → Option α) (initial : α)
    (before : List JournalAction) (a : JournalAction) :
    inForce setting? initial (before ++ [a]) =
      (setting? a).getD (inForce setting? initial before) := by
  rw [inForce, List.filterMap_append]
  cases h : setting? a <;> simp [inForce, h]

/-! ## All actions -/

/-- The journal has the settings in force. -/
structure Configured (enabled : Bool) (filters : List EventFilter) (before : List JournalAction)
    (j : Journal) : Prop where
  enabled_eq : j.enabled = inForce JournalAction.enabled? enabled before
  filters_eq : j.filters = inForce JournalAction.filters? filters before

theorem Configured.act (h : Configured enabled filters before j) (a : JournalAction) :
    Configured enabled filters (before ++ [a]) (j.act a) := by
  constructor
  · rw [act_eq, inForce_concat, ← h.enabled_eq]
  · rw [act_eq, inForce_concat, ← h.filters_eq]

theorem log_acts (h : Configured enabled filters before j) (as : List JournalAction) :
    (j.acts as).log = (wanted enabled filters before as).foldl .push j.log := by
  induction as generalizing j before with
  | nil => rfl
  | cons a as ih =>
    have hkept : a.events.filter j.keeps = a.events.filter (fun e =>
        inForce JournalAction.enabled? enabled before = true ∧
          ∃ f ∈ inForce JournalAction.filters? filters before, f.Selects e) := by
      refine List.filter_congr fun e _ => Bool.eq_iff_iff.2 ?_
      rw [keeps_iff, decide_eq_true_eq, h.enabled_eq, h.filters_eq]
    -- the settings that the action makes are in force for what comes after it
    rw [wanted, List.foldl_append, ← hkept]
    apply (ih (h.act a)).trans
    rw [act_eq]

theorem errors_acts (j : Journal) (as : List JournalAction) :
    (j.acts as).errors = j.errors ++ as.filterMap (·.message?) := by
  induction as generalizing j with
  | nil => exact (List.append_nil j.errors).symm
  | cons a as ih =>
    apply (ih (j.act a)).trans
    rw [act_eq, List.append_assoc, List.filterMap_cons]
    cases a.message? <;> rfl

/-! ## Filters in another order -/

/-- Two journals that differ at most in the order and the repetition of their filters. -/
structure Alike (j k : Journal) : Prop where
  enabled_eq : j.enabled = k.enabled
  mem_filters_iff : ∀ f, f ∈ j.filters ↔ f ∈ k.filters
  log_eq : j.log = k.log
  errors_eq : j.errors = k.errors

theorem Alike.keeps_eq (h : Alike j k) : j.keeps = k.keeps := by
  funext e
  rw [Bool.eq_iff_iff, keeps_iff, keeps_iff, h.enabled_eq]
  simp only [h.mem_filters_iff]

theorem Alike.act (h : Alike j k) (hab : a.Alike b) : Alike (j.act a) (k.act b) := by
  rw [act_eq, act_eq]
  cases hab with
  | same a =>
    refine ⟨congrArg a.enabled?.getD h.enabled_eq, fun f => ?_, ?_, ?_⟩
    · cases a.filters? with
      | none => exact h.mem_filters_iff f
      | some filters => exact Iff.rfl
    · rw [h.keeps_eq, h.log_eq]
    · rw [h.errors_eq]
  | select hfilters => exact ⟨h.enabled_eq, hfilters, h.log_eq, by rw [h.errors_eq]; rfl⟩

theorem Alike.acts (h : Alike j k) (hab : List.Forall₂ JournalAction.Alike as bs) :
    Alike (j.acts as) (k.acts bs) := by
  induction hab generalizing j k with
  | nil => exact h
  | cons hab _ ih => exact ih (h.act hab)

/-- A journal that starts empty holds the last 1024 of the events that arrived while it was switched
on and that a filter then in force stands for, in order of arrival, and every error. The order of
filters and their repetition make no difference. -/
theorem events_acts (enabled : Bool) (filters : List EventFilter) (as : List JournalAction) :
    let j := ({ enabled, filters } : Journal).acts as
    j.events = (wanted enabled filters [] as).rtake 1024 ∧
      j.errors = as.filterMap (·.message?) ∧
      ∀ filters' bs, (∀ f, f ∈ filters ↔ f ∈ filters') → List.Forall₂ JournalAction.Alike as bs →
        let k := ({ enabled, filters := filters' } : Journal).acts bs
        k.events = j.events ∧ k.errors = j.errors := by
  intro j
  refine ⟨?_, ?_, ?_⟩
  · have hlog : j.log = (wanted enabled filters [] as).foldl .push .empty :=
      log_acts ⟨rfl, rfl⟩ as
    rw [events, hlog, RingBuffer.toList_foldl_push, RingBuffer.toList_empty, List.append_nil]
    exact (List.rtake_eq_reverse_take_reverse _ _).symm
  · exact errors_acts _ as
  · intro filters' bs hfilters hab k
    have hstart : Alike ({ enabled, filters } : Journal) { enabled, filters := filters' } :=
      ⟨rfl, hfilters, rfl, rfl⟩
    have halike : Alike j k := hstart.acts hab
    exact ⟨congrArg (fun log => log.toList.reverse) halike.log_eq.symm, halike.errors_eq.symm⟩

/-- Events before the journal is switched on, while it is on with two filters, and after it has been
switched off; and the same with the two filters in another order and one of them twice. -/
theorem events_acts_in_another_order :
    let s (w : Microword) : Snapshot :=
      { microword := w
        counter := 16
        alu := 0x8001
        aluExt := 0xFFFF
        aluBuf := 0x7FFF
        dividendHi := 0x7FFF
        dividendLo := 0x1D
        divisor := 5
        flags := { negative := true }
        cycles := 6 }
    let loop : Event := .step (s (.unsigned .dvum5))
    let overflow : Event := .step (s (.exit .dvuma))
    let exit : Event := .exit (s (.exit .a1)) .overflow
    let history (filters : List EventFilter) : List JournalAction :=
      [.event exit, .error "early", .enable true, .event exit, .select filters, .event loop,
        .event overflow, .error "late", .event exit, .enable false, .event exit]
    let as := history [.exit, .microwords [.exit .dvuma, .signed .dvs01]]
    let bs := history
      [.microwords [.exit .dvuma, .signed .dvs01], .exit,
        .microwords [.exit .dvuma, .signed .dvs01]]
    let j := ({} : Journal).acts as
    let k := ({} : Journal).acts bs
    List.Forall₂ JournalAction.Alike as bs ∧ j.events = [overflow, exit] ∧
      j.errors = ["early", "late"] ∧ k.events = j.events ∧ k.errors = j.errors := by
  intro s loop overflow exit history as bs j k
  have hfilters (f : EventFilter) :
      f ∈ [.exit, .microwords [.exit .dvuma, .signed .dvs01]] ↔
        f ∈ [.microwords [.exit .dvuma, .signed .dvs01], .exit,
          .microwords [.exit .dvuma, .signed .dvs01]] := by
    simp only [List.mem_cons, List.not_mem_nil, or_false]
    tauto
  have hab : List.Forall₂ JournalAction.Alike as bs :=
    .cons (.same _) <| .cons (.same _) <| .cons (.same _) <| .cons (.same _) <|
      .cons (.select hfilters) <| .cons (.same _) <| .cons (.same _) <| .cons (.same _) <|
      .cons (.same _) <| .cons (.same _) <| .cons (.same _) .nil
  obtain ⟨hevents, herrors, hsame⟩ := events_acts false [] as
  refine ⟨hab, hevents.trans (by decide +kernel), herrors.trans (by decide +kernel), ?_⟩
  exact hsame [] bs (fun _ => Iff.rfl) hab

end Journal

end DivisionMicrocode
