/-!
# Levels

The level of a record says how much it matters, and a threshold says down to which level records
are wanted.
-/

namespace DivisionMicrocode.Log

/-- How much a record matters. -/
inductive Level where
  | error | warn | info | debug | trace
deriving DecidableEq

namespace Level

/-- The rank of a level; a record that matters less ranks higher. -/
def rank : Level → Nat
  | error => 1
  | warn => 2
  | info => 3
  | debug => 4
  | trace => 5

def text : Level → String
  | error => "ERROR"
  | warn => "WARN"
  | info => "INFO"
  | debug => "DEBUG"
  | trace => "TRACE"

def all : List Level := [error, warn, info, debug, trace]

end Level

/-- Down to which level records are wanted. -/
inductive Threshold where
  | off
  /-- The records of a level and all that matter more. -/
  | upTo (l : Level)
deriving DecidableEq

namespace Threshold

/-- The greatest rank that a threshold admits. -/
def rank : Threshold → Nat
  | off => 0
  | upTo l => l.rank

/-- Whether records of a level are wanted. -/
def admits (t : Threshold) (l : Level) : Bool := l.rank ≤ t.rank

/-- The threshold that admits the more of two. -/
def max (t u : Threshold) : Threshold := if t.rank ≤ u.rank then u else t

def text : Threshold → String
  | off => "OFF"
  | upTo l => l.text

def all : List Threshold := off :: Level.all.map upTo

/-- The threshold with a given name, in letters of either case. -/
def ofList? (cs : List Char) : Option Threshold :=
  all.find? (fun t => t.text.toList == cs.map Char.toUpper)

end Threshold

/-- The level with a given name, in letters of either case. -/
def Level.ofText? (s : String) : Option Level :=
  Level.all.find? (fun l => l.text.toList == s.toList.map Char.toUpper)

end DivisionMicrocode.Log
