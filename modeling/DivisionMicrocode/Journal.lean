import DivisionMicrocode.Event
import DivisionMicrocode.RingBuffer
/-!
# The journal

The journal keeps the most recent events that it has been asked for, and all errors that have been
reported to it. While it is enabled, it keeps an event that one of its filters selects.
-/

namespace DivisionMicrocode

/-- The most events that a journal keeps. -/
def journalCapacity : Nat := 1024

structure Journal where
  enabled : Bool := false
  filters : List EventFilter := []
  log : RingBuffer Event journalCapacity := .empty
  /-- The reported errors, in order. -/
  errors : List String := []

namespace Journal

def keeps (j : Journal) (e : Event) : Bool := j.enabled && j.filters.any (·.accepts e)

def record (j : Journal) (e : Event) : Journal :=
  if j.keeps e then { j with log := j.log.push e } else j

/-- The journal after an error has been reported. -/
def reportError (j : Journal) (message : String) : Journal :=
  { j with errors := j.errors ++ [message] }

/-- The kept events in order of arrival. -/
def events (j : Journal) : List Event := j.log.toList.reverse

end Journal

end DivisionMicrocode
