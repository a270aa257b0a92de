/-!
# Labels of the control store

Every microword of the control store has a label. A label belongs to one of three groups: the
sequence of the unsigned division, the sequence of the signed division, and the microwords of the
surrounding instruction sequencer that both sequences leave through. No label belongs to two
groups, so a label is read in one way only.
-/

namespace DivisionMicrocode

/-- The microwords of the unsigned division. -/
inductive UnsignedWord where
  | dvur1 | dvum2 | dvum3 | dvum5 | dvum6 | dvum7 | dvum8 | dvum9 | dvumb | dvumc | dvumd | dvume
  | dvumf | dvum0
deriving DecidableEq

/-- The microwords of the signed division. -/
inductive SignedWord where
  | dvs01 | dvs03 | dvs04 | dvs05 | dvs06 | dvs07 | dvs08 | dvs09 | dvs0a | dvs0c | dvs0d | dvs0e
  | dvs0f | dvs10 | dvs11 | dvs12 | dvs13 | dvs14 | dvs15 | dvs16 | dvs17 | dvs1a | dvs1b | dvs1c
  | dvs1d | dvs1e | dvs1f | dvs20
deriving DecidableEq

/-- The microwords of the instruction sequencer that a division leaves through. -/
inductive ExitWord where
  /-- An unsigned quotient does not fit, or a quotient has the wrong sign after its negation. -/
  | dvum4
  /-- The quotient of the absolute values does not fit. -/
  | dvumz
  /-- The common end of every overflow. -/
  | dvuma
  /-- The write-back of an effective address, which writes the signed result back. -/
  | leaa2
  /-- The exception raised by a zero divisor. -/
  | trap0
  /-- The start of the next instruction. -/
  | a1
deriving DecidableEq

/-- A microword of the control store. -/
inductive Microword where
  | unsigned (w : UnsignedWord)
  | signed (w : SignedWord)
  | exit (w : ExitWord)
deriving DecidableEq

namespace UnsignedWord

def label : UnsignedWord → String
  | dvur1 => "DVUR1"
  | dvum2 => "DVUM2"
  | dvum3 => "DVUM3"
  | dvum5 => "DVUM5"
  | dvum6 => "DVUM6"
  | dvum7 => "DVUM7"
  | dvum8 => "DVUM8"
  | dvum9 => "DVUM9"
  | dvumb => "DVUMB"
  | dvumc => "DVUMC"
  | dvumd => "DVUMD"
  | dvume => "DVUME"
  | dvumf => "DVUMF"
  | dvum0 => "DVUM0"

def all : List UnsignedWord :=
  [dvur1, dvum2, dvum3, dvum5, dvum6, dvum7, dvum8, dvum9, dvumb, dvumc, dvumd, dvume, dvumf,
    dvum0]

def ofLabel? (s : String) : Option UnsignedWord := all.find? (·.label == s)

theorem mem_all (w : UnsignedWord) : w ∈ all := by cases w <;> decide

@[simp] theorem ofLabel?_label (w : UnsignedWord) : ofLabel? w.label = some w := by
  cases w <;> rfl

theorem label_of_ofLabel? {s : String} {w : UnsignedWord} (h : ofLabel? s = some w) :
    w.label = s := by
  simpa using List.find?_some h

end UnsignedWord

namespace SignedWord

def label : SignedWord → String
  | dvs01 => "DVS01"
  | dvs03 => "DVS03"
  | dvs04 => "DVS04"
  | dvs05 => "DVS05"
  | dvs06 => "DVS06"
  | dvs07 => "DVS07"
  | dvs08 => "DVS08"
  | dvs09 => "DVS09"
  | dvs0a => "DVS0A"
  | dvs0c => "DVS0C"
  | dvs0d => "DVS0D"
  | dvs0e => "DVS0E"
  | dvs0f => "DVS0F"
  | dvs10 => "DVS10"
  | dvs11 => "DVS11"
  | dvs12 => "DVS12"
  | dvs13 => "DVS13"
  | dvs14 => "DVS14"
  | dvs15 => "DVS15"
  | dvs16 => "DVS16"
  | dvs17 => "DVS17"
  | dvs1a => "DVS1A"
  | dvs1b => "DVS1B"
  | dvs1c => "DVS1C"
  | dvs1d => "DVS1D"
  | dvs1e => "DVS1E"
  | dvs1f => "DVS1F"
  | dvs20 => "DVS20"

def all : List SignedWord :=
  [dvs01, dvs03, dvs04, dvs05, dvs06, dvs07, dvs08, dvs09, dvs0a, dvs0c, dvs0d, dvs0e, dvs0f,
    dvs10, dvs11, dvs12, dvs13, dvs14, dvs15, dvs16, dvs17, dvs1a, dvs1b, dvs1c, dvs1d, dvs1e,
    dvs1f, dvs20]

def ofLabel? (s : String) : Option SignedWord := all.find? (·.label == s)

theorem mem_all (w : SignedWord) : w ∈ all := by cases w <;> decide

@[simp] theorem ofLabel?_label (w : SignedWord) : ofLabel? w.label = some w := by
  cases w <;> rfl

theorem label_of_ofLabel? {s : String} {w : SignedWord} (h : ofLabel? s = some w) :
    w.label = s := by
  simpa using List.find?_some h

end SignedWord

namespace ExitWord

def label : ExitWord → String
  | dvum4 => "DVUM4"
  | dvumz => "DVUMZ"
  | dvuma => "DVUMA"
  | leaa2 => "LEAA2"
  | trap0 => "TRAP0"
  | a1 => "A1"

def all : List ExitWord := [dvum4, dvumz, dvuma, leaa2, trap0, a1]

def ofLabel? (s : String) : Option ExitWord := all.find? (·.label == s)

/-- Whether the microword hands control back to the instruction sequencer. -/
def isTerminal (w : ExitWord) : Bool := w == trap0 || w == a1

theorem mem_all (w : ExitWord) : w ∈ all := by cases w <;> decide

@[simp] theorem ofLabel?_label (w : ExitWord) : ofLabel? w.label = some w := by
  cases w <;> rfl

theorem label_of_ofLabel? {s : String} {w : ExitWord} (h : ofLabel? s = some w) :
    w.label = s := by
  simpa using List.find?_some h

end ExitWord

namespace Microword

def label : Microword → String
  | unsigned w => w.label
  | signed w => w.label
  | exit w => w.label

/-- The name of the group that a microword belongs to. -/
def group : Microword → String
  | unsigned _ => "divu"
  | signed _ => "divs"
  | exit _ => "exit"

/-- Whether the microword hands control back to the instruction sequencer. -/
def isTerminal : Microword → Bool
  | exit w => w.isTerminal
  | _ => false

instance : Inhabited Microword := ⟨exit .a1⟩

/-- The microword with a given label, whichever group it belongs to. -/
def ofLabel? (s : String) : Option Microword :=
  (UnsignedWord.ofLabel? s).map unsigned <|>
    (SignedWord.ofLabel? s).map signed <|> (ExitWord.ofLabel? s).map exit

/-- What a reader is told about a text that is no label. -/
def unknownLabelMessage (s : String) : String := "Unknown microword label: " ++ s

@[simp] theorem ofLabel?_label (w : Microword) : ofLabel? w.label = some w := by
  rcases w with w | w | w <;> cases w <;> rfl

theorem label_of_ofLabel? {s : String} {w : Microword} (h : ofLabel? s = some w) :
    w.label = s := by
  simp only [ofLabel?, Option.orElse_eq_orElse, Option.orElse_eq_or, Option.or_eq_some_iff,
    Option.map_eq_some_iff] at h
  rcases h with ⟨u, hu, rfl⟩ | ⟨_, ⟨u, hu, rfl⟩ | ⟨_, u, hu, rfl⟩⟩
  · exact UnsignedWord.label_of_ofLabel? hu
  · exact SignedWord.label_of_ofLabel? hu
  · exact ExitWord.label_of_ofLabel? hu

theorem ofLabel?_eq_some_iff {s : String} {w : Microword} : ofLabel? s = some w ↔ s = w.label :=
  ⟨fun h => (label_of_ofLabel? h).symm, fun h => h ▸ ofLabel?_label w⟩

end Microword

end DivisionMicrocode
