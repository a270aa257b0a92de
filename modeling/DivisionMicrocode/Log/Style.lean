import DivisionMicrocode.Log.Filter
/-!
# Styles

How a record looks on a terminal: the letter of its level in front of its text, except for a trace
record, and both in colour if so asked.
-/

namespace DivisionMicrocode.Log

namespace Style

/-- The control sequence that sets a terminal's attributes. -/
def attributes (codes : String) : List Char := '\x1b' :: '[' :: codes.toList ++ ['m']

/-- The control sequence that clears a terminal's attributes. -/
def reset : List Char := attributes "0"

/-- Sets the attributes again after each sequence in a text that clears them. -/
def resume (style : List Char) : List Char → List Char
  | '\x1b' :: '[' :: '0' :: 'm' :: cs => reset ++ style ++ resume style cs
  | c :: cs => c :: resume style cs
  | [] => []

/-- A text with attributes, if it is to have any. -/
def paint (colored : Bool) (codes : String) (text : String) : String :=
  if colored then
    String.ofList (attributes codes ++ resume (attributes codes) text.toList ++ reset)
  else
    text

def recordLine (colored : Bool) (r : Record) : String :=
  match r.level with
  | .error => paint colored "1;31" "E" ++ " " ++ paint colored "31" r.text
  | .warn => paint colored "1;33" "W" ++ " " ++ paint colored "33" r.text
  | .info => paint colored "1;34" "I" ++ " " ++ r.text
  | .debug => paint colored "34" "D" ++ " " ++ r.text
  | .trace => paint colored "2" r.text

/-- The line that stands for trace records that have been let go. -/
def ellipsis (colored : Bool) : String := paint colored "2" "..."

end Style

end DivisionMicrocode.Log
