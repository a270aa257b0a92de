import DivisionMicrocode.Course
import DivisionMicrocode.Journal
import DivisionMicrocode.Log.Facility
/-!
# Observed divisions

A division may be watched while it runs. An observer is told of the registers before each
microword and of the end, and keeps what it has seen in a state of its own; it has no way to change
the registers. A journal is one observer, the logging facility another.
-/

namespace DivisionMicrocode

universe u v

/-- What is said of a division that has ended. -/
structure Summary where
  instruction : Instruction
  /-- The dividend on entry. -/
  dividend : Long
  divisor : Word
  outcome : Outcome
  /-- The clocks of this division. -/
  clocks : Nat
deriving DecidableEq

/-- The line of a summary. -/
def Summary.line (s : Summary) : String :=
  s.instruction.text ++ " " ++ String.ofList (Text.Numeral.write 16 8 s.dividend.toNat) ++ " / " ++
    String.ofList (Text.Numeral.write 16 4 s.divisor.toNat) ++ ": " ++ s.outcome.text ++
    " after " ++ String.ofList (Text.Numeral.write 10 1 s.clocks) ++ " cycles"

/-- Something that watches divisions with a state of type `σ`. -/
structure Observer (σ : Type u) where
  /-- Told of the registers before a microword executes. -/
  step : Snapshot → σ → σ
  /-- Told of the registers at the end. -/
  finish : Snapshot → Summary → σ → σ

namespace Observer

/-- Two observers side by side. -/
def pair {σ : Type u} {τ : Type v} (a : Observer σ) (b : Observer τ) : Observer (σ × τ) where
  step s := Prod.map (a.step s) (b.step s)
  finish s summary := Prod.map (a.finish s summary) (b.finish s summary)

/-- An observer that may be absent. -/
def optional {σ : Type u} (a : Observer σ) : Observer (Option σ) where
  step s := Option.map (a.step s)
  finish s summary := Option.map (a.finish s summary)

/-- A journal records each step and the exit. -/
def journal : Observer Journal where
  step s j := j.record (.step s)
  finish s summary j := j.record (.exit s summary.outcome)

def stepRecord (s : Snapshot) : Log.Record where
  level := .trace
  target := "divider_state"
  text := s.line

def summaryRecord (s : Summary) : Log.Record where
  level := .debug
  target := "divider"
  text := s.line

/-- The logging facility is handed a line for each step, where it wants them, and the summary. -/
def log : Observer Log.Facility where
  step s f := if f.wants .trace "divider_state" then f.submit (stepRecord s) else f
  finish _ summary f := f.submit (summaryRecord summary)

end Observer

/-- What watches a division: a journal, if there is one, and the logging facility. -/
def Observer.divider : Observer (Option Journal × Log.Facility) := .pair (.optional .journal) .log

/-- What a watched division leaves behind. -/
structure Observed (σ : Type u) where
  result : Except Fault Outcome
  final : RegisterFile
  /-- The observer's state at the end. -/
  seen : σ

namespace RegisterFile

/-- Executes microwords before the eyes of an observer. `overflowed` says whether the common end
of overflows has come up, and `summary` what is said of the end. -/
def runObserved {σ : Type u} (o : Observer σ) (summary : RegisterFile → Outcome → Summary)
    (r : RegisterFile) (overflowed : Bool) (seen : σ) : Observed σ :=
  match _h : r.next? with
  | some s =>
    s.runObserved o summary (overflowed || r.overflows) (o.step (Snapshot.ofRegisters r) seen)
  | none =>
    if r.controlState.isTerminal then
      let outcome := r.outcome overflowed
      { result := .ok outcome
        final := r
        seen := o.finish (Snapshot.ofRegisters r) (summary r outcome) seen }
    else
      { result := .error .clockOverflow
        final := r
        seen := o.step (Snapshot.ofRegisters r) seen }
termination_by r.remaining
decreasing_by exact remaining_lt_of_next? _h

/-- A division of the dividend register by the divisor, before the eyes of an observer. -/
def divideObserved {σ : Type u} (o : Observer σ) (i : Instruction) (r : RegisterFile) (seen : σ) :
    Observed σ :=
  let summary (final : RegisterFile) (outcome : Outcome) : Summary :=
    { instruction := i
      dividend := r.dividend
      divisor := final.divisor
      outcome := outcome
      clocks := final.cycles.toNat - r.cycles.toNat }
  (r.enter i).runObserved o summary false seen

end RegisterFile

end DivisionMicrocode
