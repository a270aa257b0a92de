import DivisionMicrocode.Registers
/-!
# Snapshots

The part of the register file that a trace shows.
-/

namespace DivisionMicrocode

/-- What a trace shows of the registers. -/
structure Snapshot where
  microword : Microword
  counter : Long
  alu : Word
  aluExt : Word
  aluBuf : Word
  dividendHi : Word
  dividendLo : Word
  divisor : Word
  flags : Flags
  cycles : Clocks
deriving DecidableEq

def Snapshot.ofRegisters (r : RegisterFile) : Snapshot where
  microword := r.controlState
  counter := r.counter
  alu := r.alu
  aluExt := r.aluExt
  aluBuf := r.aluBuf
  dividendHi := r.dividendHi
  dividendLo := r.dividendLo
  divisor := r.divisor
  flags := r.flags
  cycles := r.cycles

end DivisionMicrocode
