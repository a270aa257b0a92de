import DivisionMicrocode.Snapshot.Basic
import DivisionMicrocode.Text.Numeral
/-!
# Trace lines

The line that a trace shows for a snapshot. It has nine fields with a blank after each but the
last: the label, padded to five characters; the counter in hexadecimal; the three registers of the
arithmetic unit in binary; the dividend and the divisor in hexadecimal; the flags; and the clock
in decimal.
-/

namespace DivisionMicrocode

namespace Snapshot

/-- What stands in front of the value of a field. -/
inductive Tag where
  | au | alu | alue | alub | rx | ry | cyc
deriving DecidableEq

def Tag.text : Tag → String
  | au => "AU:"
  | alu => "ALU:"
  | alue => "ALUE:"
  | alub => "ALUB:"
  | rx => "RX:"
  | ry => "RY:"
  | cyc => "CYC:"

open Text (Numeral.write)

/-- The fields of a trace line, in order. -/
def fields (s : Snapshot) : List (List Char) :=
  [s.microword.label.toList.rightpad 5 ' ',
    Tag.au.text.toList ++ Numeral.write 16 8 s.counter.toNat,
    Tag.alu.text.toList ++ Numeral.write 2 16 s.alu.toNat,
    Tag.alue.text.toList ++ Numeral.write 2 16 s.aluExt.toNat,
    Tag.alub.text.toList ++ Numeral.write 2 16 s.aluBuf.toNat,
    Tag.rx.text.toList ++ Numeral.write 16 4 s.dividendHi.toNat ++
      ':' :: Numeral.write 16 4 s.dividendLo.toNat,
    Tag.ry.text.toList ++ Numeral.write 16 4 s.divisor.toNat,
    s.flags.toList,
    Tag.cyc.text.toList ++ Numeral.write 10 1 s.cycles.toNat]

def line (s : Snapshot) : String := String.ofList ([' '].intercalate s.fields)

end Snapshot

end DivisionMicrocode
