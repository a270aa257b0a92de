import DivisionMicrocode.Log.Facility
import DivisionMicrocode.Proofs.LogStream
/-!
# What reaches the logger

The logger is handed a record if the threshold admits its level. The threshold does not change on
the way, so of a stream of records the logger is handed those of the admitted levels
(`received_of_logger`). The project's own logger prints of them what its backlog prints
(`printed_foldl_deliver`). Which records a logger wants could change with each that it is handed;
the project's own is steady, and an embedding program's is taken to be where that matters
(`Steady`).

A request for the project's own logger that comes too late, with another logger in place, still sets
the threshold from the filter that it then reports as ignored. So the filter decides what reaches
the other logger from there on, unless the threshold already was the filter's own
(`make_of_logger`).
-/

namespace DivisionMicrocode.Log

/-! ## Steady loggers -/

/-- No record changes what the logger wants. -/
def ForeignLogger.Steady (l : ForeignLogger) : Prop :=
  ∀ state x, l.enabled (l.log state x).1 = l.enabled state

def Logger.Steady : Logger → Prop
  | own _ _ _ => True
  | foreign l _ => l.Steady

/-- The installed logger is steady, if there is one. -/
def Facility.Steady (f : Facility) : Prop := ∀ l ∈ f.logger, l.Steady

namespace Logger

variable {l : Logger}

theorem Steady.log (h : l.Steady) (x : Record) : (l.log x).1.Steady := by
  cases l with
  | own f colored b => exact trivial
  | foreign l state => exact h

theorem Steady.enabled_log (h : l.Steady) (x : Record) (level : Level) (target : String) :
    (l.log x).1.enabled level target = l.enabled level target := by
  cases l with
  | own f colored b => rfl
  | foreign l state => exact congrFun (congrFun (h state x) level) target

end Logger

namespace Facility

/-! ## One record -/

/-- What the logger is handed of a record: the record itself, if the threshold admits it and there
is a logger. -/
def handed (f : Facility) (x : Record) : List Record :=
  if f.threshold.admits x.level = true ∧ f.logger.isSome = true then [x] else []

theorem submit_eq (f : Facility) (x : Record) : f.submit x = (f.handed x).foldl deliver f := by
  rw [submit, handed]
  cases f.threshold.admits x.level with
  | false => rfl
  | true =>
    cases hlogger : f.logger with
    | none => simp [deliver, hlogger]
    | some l => rfl

theorem submit_of_logger {s : Facility} {l : Logger} (h : s.logger = some l) (x : Record) :
    s.submit x =
      { s with
        logger := some (if s.threshold.admits x.level then (l.log x).1 else l)
        printed := s.printed ++ if s.threshold.admits x.level then (l.log x).2 else [] } := by
  rw [submit]
  split
  · simp only [deliver, h]
  · rw [← h, List.append_nil]

theorem Steady.deliver {f : Facility} (h : f.Steady) (x : Record) : (f.deliver x).Steady := by
  rw [Facility.deliver]
  split
  case h_1 => exact h
  case h_2 l hlogger =>
    intro l' hl'
    obtain rfl := Option.some.inj hl'
    exact (h l hlogger).log x

theorem Steady.wants_deliver {f : Facility} (h : f.Steady) (x : Record) (level : Level)
    (target : String) : (f.deliver x).wants level target = f.wants level target := by
  rw [Facility.deliver]
  split
  case h_1 => rfl
  case h_2 l hlogger => simp [wants, enabled, hlogger, (h l hlogger).enabled_log]

theorem handed_deliver (f : Facility) (x y : Record) : (f.deliver x).handed y = f.handed y := by
  rw [deliver]
  split
  case h_1 => rfl
  case h_2 l hlogger => simp [handed, hlogger]

theorem handed_foldl_deliver (f : Facility) (xs : List Record) (y : Record) :
    (xs.foldl deliver f).handed y = f.handed y := by
  induction xs generalizing f with
  | nil => rfl
  | cons x xs ih => rw [List.foldl_cons, ih, handed_deliver]

theorem eq_of_mem_handed {f : Facility} {x y : Record} (h : y ∈ f.handed x) : y = x := by
  rw [handed] at h
  split at h
  case isTrue => exact List.mem_singleton.1 h
  case isFalse => cases h

theorem handed_of_wants {f : Facility} {x : Record} (h : f.wants x.level x.target = true) :
    f.handed x = [x] := by
  rw [wants, Bool.and_eq_true] at h
  refine if_pos ⟨h.1, ?_⟩
  cases hlogger : f.logger with
  | none => simp [enabled, hlogger] at h
  | some l => rfl

/-! ## A stream of records -/

/-- The records of a stream that the logger is handed. -/
def received (f : Facility) : List Record → List Record
  | [] => []
  | x :: xs => f.handed x ++ (f.submit x).received xs

theorem received_eq_flatMap (f : Facility) (xs : List Record) :
    f.received xs = xs.flatMap f.handed := by
  induction xs generalizing f with
  | nil => rfl
  | cons x xs ih =>
    -- a record that has come does not change what the logger is handed of the next
    have hsame : (f.submit x).handed = f.handed := by
      funext y
      rw [submit_eq, handed_foldl_deliver]
    rw [received, ih, hsame, List.flatMap_cons]

variable {s : Facility} {l : Logger}

theorem received_of_logger (h : s.logger = some l) (xs : List Record) :
    s.received xs = xs.filter (s.threshold.admits ·.level) := by
  have hhanded (x : Record) : s.handed x = if s.threshold.admits x.level then [x] else [] := by
    rw [handed, h]
    simp only [Option.isSome_some, and_true]
  rw [received_eq_flatMap]
  induction xs with
  | nil => rfl
  | cons x xs ih =>
    rw [List.flatMap_cons, ih, hhanded, List.filter_cons]
    split <;> rfl

/-- What the project's own logger prints of the records that it is handed is what its backlog
prints, where the filter decides what is accepted. -/
theorem printed_foldl_deliver {f : Filter} {colored : Bool} {b : Backlog}
    (h : s.logger = some (.own f colored b)) (xs : List Record) :
    (xs.foldl deliver s).printed = s.printed ++ Backlog.printed f.accepts colored b xs := by
  induction xs generalizing s b with
  | nil => exact (List.append_nil _).symm
  | cons x xs ih =>
    have hdeliver : s.deliver x =
        { s with
          logger := some (.own f colored (b.log f.accepts colored x).1)
          printed := s.printed ++ (b.log f.accepts colored x).2 } := by
      rw [deliver, h]
      rfl
    rw [List.foldl_cons, hdeliver, ih rfl, Backlog.printed, List.append_assoc]

end Facility

/-! ## Thresholds -/

namespace Threshold

variable {t u : Threshold}

theorem rank_le_of_admits (h : ∀ x, t.admits x = true → u.admits x = true) : t.rank ≤ u.rank := by
  cases t with
  | off => exact Nat.zero_le u.rank
  | upTo a =>
    apply of_decide_eq_true
    exact h a (decide_eq_true (Nat.le_refl a.rank))

theorem eq_of_rank (h : t.rank = u.rank) : t = u := by
  rcases t with _ | a <;> rcases u with _ | b
  case off.off => rfl
  case off.upTo => cases b <;> cases h
  case upTo.off => cases a <;> cases h
  case upTo.upTo => cases a <;> cases b <;> first | rfl | cases h

/-- A threshold is known by the levels that it admits. -/
theorem eq_of_admits (h : ∀ x, t.admits x = u.admits x) : t = u := by
  apply eq_of_rank
  apply Nat.le_antisymm
  · exact rank_le_of_admits fun x hx => (h x).symm.trans hx
  · exact rank_le_of_admits fun x hx => (h x).trans hx

end Threshold

/-! ## Requests for the project's logger -/

/-- The ways to ask for the project's logger. -/
inductive Request where
  | standard
  | test (verbose : Bool)

namespace Request

/-- The filter of a request that finds none in the environment. -/
def fallback : Request → String
  | standard => "error"
  | test verbose => if verbose then "info,divider_state=trace" else "warn"

def filter (q : Request) (env : Environment) : Filter :=
  .ofTexts env.readPattern (env.commonFilter.toList ++ [env.filter.getD q.fallback])

def make (env : Environment) (s : Facility) : Request → Facility
  | standard => s.init env
  | test verbose => s.testInit env verbose

end Request

namespace Facility

variable {s : Facility} {l : Logger}

/-- The facility `t` is `s` after the warning and no more: the same threshold, the same logger, and
the same records for it later. -/
structure LeftAlone (s t : Facility) : Prop where
  threshold : t.threshold = s.threshold
  logger : t.logger = (s.submit ignoredFilterWarning).logger
  printed : t.printed = (s.submit ignoredFilterWarning).printed
  received : ∀ xs, t.received xs = s.received xs

/-- The project's logger stays out, but the threshold is set. -/
theorem install_of_logger (h : s.logger = some l) (env : Environment) (filter : String) :
    s.install env filter =
      { s with
        threshold :=
          (Filter.ofTexts env.readPattern (env.commonFilter.toList ++ [filter])).maxThreshold
      }.submit ignoredFilterWarning := by
  simp only [install, setLogger, h]

theorem make_eq (q : Request) (env : Environment) (s : Facility) :
    q.make env s = s.request env q.fallback := by
  cases q <;> rfl

/-- What a first request does when another logger is in place: it sets the threshold and warns. -/
theorem make_eq_submit (hlogger : s.logger = some l) (hfirst : s.initialized = false)
    (q : Request) (env : Environment) :
    q.make env s =
      { s with
        threshold := (q.filter env).maxThreshold
        initialized := true }.submit ignoredFilterWarning := by
  rw [make_eq, request, hfirst, if_neg Bool.false_ne_true]
  exact install_of_logger (s := { s with initialized := true }) hlogger env _

theorem received_eq_iff {t : Facility} {m : Logger} (hs : s.logger = some l)
    (ht : t.logger = some m) :
    (∀ xs, t.received xs = s.received xs) ↔ t.threshold = s.threshold := by
  constructor
  · intro h
    apply Threshold.eq_of_admits
    intro x
    -- one record of the level tells whether it is admitted
    have hx := h [⟨x, "", ""⟩]
    rw [received_of_logger hs, received_of_logger ht] at hx
    simp only [List.filter_cons, List.filter_nil] at hx
    revert hx
    cases t.threshold.admits x <;> cases s.threshold.admits x <;> simp
  · intro h xs
    rw [received_of_logger hs, received_of_logger ht, h]

/-- A first request that finds another logger in place leaves that logger where it is, but sets the
threshold to the greatest that its own filter has, and warns under that threshold. What the logger
is handed from there on is left alone exactly if the threshold was this one before. -/
theorem make_of_logger (q : Request) (env : Environment) (hlogger : s.logger = some l)
    (hfirst : s.initialized = false) :
    let limit := (q.filter env).maxThreshold
    let warned := limit.admits .warn
    let t := q.make env s
    t =
        { threshold := limit
          logger := some (if warned then (l.log ignoredFilterWarning).1 else l)
          initialized := true
          printed := s.printed ++ if warned then (l.log ignoredFilterWarning).2 else [] } ∧
      (∀ xs, t.received xs = xs.filter (limit.admits ·.level)) ∧
      (∀ xs, s.received xs = xs.filter (s.threshold.admits ·.level)) ∧
      ((∀ xs, t.received xs = s.received xs) ↔ limit = s.threshold) ∧
      (s.LeftAlone t ↔ limit = s.threshold) := by
  intro limit warned t
  let opened : Facility := { s with threshold := limit, initialized := true }
  have ht : t = _ :=
    (make_eq_submit hlogger hfirst q env).trans (submit_of_logger (s := opened) hlogger _)
  have hreceived : (∀ xs, t.received xs = s.received xs) ↔ limit = s.threshold := by
    rw [received_eq_iff hlogger (congrArg logger ht), ht]
  refine ⟨ht, fun xs => ?_, received_of_logger hlogger, hreceived, ?_⟩
  · rw [received_of_logger (congrArg logger ht), ht]
  · refine ⟨fun h => hreceived.1 h.received, fun h => ⟨?_, ?_, ?_, hreceived.2 h⟩⟩
    · rw [ht]
      exact h
    · rw [ht, submit_of_logger hlogger, ← h]
    · rw [ht, submit_of_logger hlogger, ← h]

end Facility

/-- A logger of an embedding program that prints every record as it is. -/
def Logger.announcer : Logger :=
  .foreign
    { State := Unit
      enabled := fun _ _ _ => true
      log := fun state r =>
        (state, ["embedder " ++ r.level.text ++ " " ++ r.target ++ " " ++ r.text]) }
    ()

theorem Logger.steady_announcer : announcer.Steady := fun _ _ => rfl

namespace Facility

/-- An embedding program that wants errors only is sent every trace record from then on, and the
warning before, which it would not have been sent. -/
theorem make_of_logger_opens :
    let s : Facility := { threshold := .upTo .error, logger := some .announcer }
    let env : Environment :=
      { filter := some "divider_state=trace", readPattern := fun _ => none }
    let t := (Request.test false).make env s
    let step : Record := ⟨.trace, "divider_state", "DVUR1"⟩
    s.logger = some .announcer ∧ s.initialized = false ∧ t.threshold = .upTo .trace ∧
      t.printed =
        ["embedder WARN m68k_divider::common::logging " ++ ignoredFilterWarning.text] ∧
      t.received [step] = [step] ∧ s.received [step] = [] ∧ ¬s.LeftAlone t := by
  intro s env t step
  have hlimit : ((Request.test false).filter env).maxThreshold = .upTo .trace := by decide +kernel
  obtain ⟨ht, hreceived, hbefore, -, hleft⟩ :=
    make_of_logger (.test false) env (s := s) (l := .announcer) rfl rfl
  rw [hlimit] at ht hreceived hleft
  refine ⟨rfl, rfl, ?_, ?_, hreceived [step], hbefore [step], ?_⟩
  · exact congrArg Facility.threshold ht
  · exact (congrArg Facility.printed ht).trans (by decide +kernel)
  · exact mt hleft.1 (by decide)

/-- The same from the other side: an embedding program that wants everything loses all that the
ignored filter does not want. -/
theorem init_not_leftAlone :
    let s := (setLogger .announcer { threshold := .upTo .trace }).1
    let env : Environment := { filter := some "warn", readPattern := fun _ => none }
    let later : Record := ⟨.info, "a", "later"⟩
    s.logger = some .announcer ∧ s.initialized = false ∧ ¬s.LeftAlone (s.init env) ∧
      s.threshold = .upTo .trace ∧ (s.init env).threshold = .upTo .warn ∧
      s.received [later] = [later] ∧ (s.init env).received [later] = [] := by
  intro s env later
  have hbefore : s.threshold = .upTo .trace := rfl
  have hafter : (s.init env).threshold = .upTo .warn := by decide +kernel
  refine ⟨rfl, rfl, ?_, hbefore, hafter, by decide, by decide +kernel⟩
  intro h
  have hsame := h.threshold
  rw [hbefore, hafter] at hsame
  cases hsame

end Facility

end DivisionMicrocode.Log
