import DivisionMicrocode.Outcome
import DivisionMicrocode.Snapshot.Printer
/-!
# Events of a division

A division reports the registers before each microword, and the registers and the outcome at its
end. A filter selects among these events.
-/

namespace DivisionMicrocode

/-- What a division reports. -/
inductive Event where
  /-- The registers before a microword executes. -/
  | step (state : Snapshot)
  /-- The registers at the end, and the outcome. -/
  | exit (state : Snapshot) (outcome : Outcome)
deriving DecidableEq

namespace Event

/-- What the event shows of the registers. -/
def state : Event → Snapshot
  | step s => s
  | exit s _ => s

/-- The line of an event: its kind, the outcome of an exit, and the trace line. -/
def line : Event → String
  | step s => "step " ++ s.line
  | exit s o => "exit " ++ o.text ++ " " ++ s.line

end Event

/-- A selection of events. -/
inductive EventFilter where
  /-- All events. -/
  | any
  /-- The steps before one of the given microwords. -/
  | microwords (ws : List Microword)
  /-- The exits. -/
  | exit
deriving DecidableEq

/-- Whether a filter selects an event. -/
def EventFilter.accepts : EventFilter → Event → Bool
  | any, _ => true
  | microwords ws, .step s => ws.contains s.microword
  | microwords _, .exit _ _ => false
  | exit, .step _ => false
  | exit, .exit _ _ => true

end DivisionMicrocode
