import DivisionMicrocode.Log.Backlog
/-!
# The logging facility

Records go to the one logger that is installed, unless the facility's threshold keeps them back.
The project's own logger prints what its filter accepts, with the backlog as context. A program
that embeds the divider may have installed a logger of its own before; then the project's logger
stays out and warns that its filter is ignored. Nothing is said of such a logger but what it does
with a record in a state of its own.
-/

namespace DivisionMicrocode.Log

/-- What the facility finds around it. -/
structure Environment where
  /-- The filter for the project's logger. -/
  filter : Option String := none
  /-- The filter for all programs, to which the project's own is added. -/
  commonFilter : Option String := none
  colored : Bool := false
  /-- The pattern that a text stands for, if it is written as one. -/
  readPattern : String → Option Pattern

/-- The logger of an embedding program. -/
structure ForeignLogger where
  State : Type
  /-- Whether the logger wants records of a level and a target. -/
  enabled : State → Level → String → Bool
  /-- The state after a record, and the lines that the record prints. -/
  log : State → Record → State × List String

inductive Logger where
  /-- The project's own. -/
  | own (filter : Filter) (colored : Bool) (backlog : Backlog)
  | foreign (logger : ForeignLogger) (state : logger.State)

namespace Logger

/-- Whether the logger wants records of a level and a target. -/
def enabled (level : Level) (target : String) : Logger → Bool
  | own f _ _ => f.enabled level target
  | foreign l state => l.enabled state level target

/-- The logger after a record, and the lines that the record prints. -/
def log (r : Record) : Logger → Logger × List String
  | own f colored b =>
    let (b', lines) := b.log f.accepts colored r
    (own f colored b', lines)
  | foreign l state =>
    let (state', lines) := l.log state r
    (foreign l state', lines)

end Logger

structure Facility where
  /-- No record beyond this threshold reaches the logger. -/
  threshold : Threshold := .off
  logger : Option Logger := none
  /-- Whether the project's logger has been asked for. -/
  initialized : Bool := false
  /-- What has been printed, in order. -/
  printed : List String := []

namespace Facility

/-- Whether the installed logger wants records of a level and a target. -/
def enabled (s : Facility) (level : Level) (target : String) : Bool :=
  (s.logger.map (·.enabled level target)).getD false

/-- Whether records of a level and a target get as far as the logger, which wants them. -/
def wants (s : Facility) (level : Level) (target : String) : Bool :=
  s.threshold.admits level && s.enabled level target

/-- The facility after a record has been handed to the installed logger. -/
def deliver (s : Facility) (r : Record) : Facility :=
  match s.logger with
  | none => s
  | some l => { s with logger := some (l.log r).1, printed := s.printed ++ (l.log r).2 }

def submit (s : Facility) (r : Record) : Facility :=
  if s.threshold.admits r.level then s.deliver r else s

/-- The warning of a logger that has stayed out. -/
def ignoredFilterWarning : Record where
  level := .warn
  target := "m68k_divider::common::logging"
  text := "logger already installed, M68K_DIVIDER_LOG is ignored"

/-- Installs a logger, if there is none, and says whether it has been installed. -/
def setLogger (l : Logger) (s : Facility) : Facility × Bool :=
  match s.logger with
  | none => ({ s with logger := some l }, true)
  | some _ => (s, false)

/-- Installs the project's logger. The threshold is set whether or not it can be installed. -/
def install (env : Environment) (filter : String) (s : Facility) : Facility :=
  let f := Filter.ofTexts env.readPattern (env.commonFilter.toList ++ [filter])
  match { s with threshold := f.maxThreshold }.setLogger (.own f env.colored .empty) with
  | (installed, true) => installed
  | (refused, false) => refused.submit ignoredFilterWarning

/-- Installs the project's logger at the first request, with the environment's filter or else the
given one. -/
def request (env : Environment) (fallback : String) (s : Facility) : Facility :=
  if s.initialized then s else { s with initialized := true }.install env (env.filter.getD fallback)

def init (env : Environment) (s : Facility) : Facility := s.request env "error"

def testInit (env : Environment) (verbose : Bool) (s : Facility) : Facility :=
  s.request env (if verbose then "info,divider_state=trace" else "warn")

end Facility

end DivisionMicrocode.Log
