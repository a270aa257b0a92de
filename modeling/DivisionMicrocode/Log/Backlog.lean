import DivisionMicrocode.Log.Style
import DivisionMicrocode.RingBuffer
/-!
# The backlog

Trace records are not printed at once. The latest are held back, and shown as the context of the
next record that matters more. A full backlog may have let some go, and says so.
-/

namespace DivisionMicrocode.Log

/-- The most lines that are held back. -/
def backlogCapacity : Nat := 20

/-- The lines held back, the newest first. -/
abbrev Backlog := RingBuffer String backlogCapacity

namespace Backlog

/-- The lines held back in order of arrival, after an ellipsis if some may have been let go. -/
def context (colored : Bool) (b : Backlog) : List String :=
  (if b.length = backlogCapacity then [Style.ellipsis colored] else []) ++ b.toList.reverse

/-- The backlog after a record, and the lines that the record prints. A record that is not
accepted changes nothing. -/
def log (accepts : Record → Bool) (colored : Bool) (b : Backlog) (r : Record) :
    Backlog × List String :=
  if accepts r then
    if r.level = .trace then
      (b.push (Style.recordLine colored r), [])
    else
      (.empty, b.context colored ++ [Style.recordLine colored r])
  else
    (b, [])

end Backlog

end DivisionMicrocode.Log
