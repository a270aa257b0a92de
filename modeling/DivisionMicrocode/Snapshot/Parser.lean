import DivisionMicrocode.Snapshot.Printer
import DivisionMicrocode.Text.WhiteSpace
/-!
# Reading trace lines

A trace line is read token by token, and the first fault is reported. The tokens may stand apart
by any white space, and nothing after the ninth token matters.
-/

namespace DivisionMicrocode

namespace Snapshot

/-- The numerals of a trace line. -/
inductive NumeralField where
  | counter | alu | aluExt | aluBuf | dividendHi | dividendLo | divisor | cycles
deriving DecidableEq

/-- How a report names a numeral. -/
def NumeralField.name : NumeralField → String
  | counter => "au"
  | alu => "alu"
  | aluExt => "alue"
  | aluBuf => "alub"
  | dividendHi => "rx high"
  | dividendLo => "rx low"
  | divisor => "ry"
  | cycles => "cycles"

/-- What is wrong with a text that is no trace line. -/
inductive ParseError where
  /-- There is no token at all. -/
  | noMicroword
  | unknownMicroword (token : String)
  /-- The tokens end before the field with this tag. -/
  | noField (tag : Tag)
  /-- A token does not begin with the tag of its field. -/
  | otherField (tag : Tag) (token : String)
  /-- The two words of the dividend are not told apart. -/
  | noColon
  | badNumeral (field : NumeralField) (e : Text.NumeralError)
  /-- The tokens end before the flags. -/
  | noFlags
  /-- The flags have not five characters. -/
  | badFlags
deriving DecidableEq

/-- The contexts of an error from the outside in, and its cause at the end. -/
def ParseError.chain : ParseError → List String
  | noMicroword => ["microword"]
  | unknownMicroword token => [Microword.unknownLabelMessage token]
  | noField tag => ["Missing " ++ tag.text ++ " field."]
  | otherField tag token => ["Expected " ++ tag.text ++ " in " ++ token]
  | noColon => ["Invalid RX field."]
  | badNumeral field e => [field.name, e.message]
  | noFlags => ["flags"]
  | badFlags => [Flags.lengthMessage]

/-- What is reported of a text that is no trace line. -/
def ParseError.message (e : ParseError) : String := ": ".intercalate e.chain

def readMicroword : Option (List Char) → Except ParseError Microword
  | none => .error .noMicroword
  | some token =>
    match Microword.ofLabel? (String.ofList token) with
    | none => .error (.unknownMicroword (String.ofList token))
    | some w => .ok w

/-- Reads the value of a field, which follows its tag. -/
def readField (tag : Tag) : Option (List Char) → Except ParseError (List Char)
  | none => .error (.noField tag)
  | some token =>
    match tag.text.toList.isPrefixOf? token with
    | none => .error (.otherField tag (String.ofList token))
    | some value => .ok value

def readNumeral (field : NumeralField) (radix bits : Nat) (cs : List Char) :
    Except ParseError (BitVec bits) :=
  (Text.Numeral.read radix bits cs).mapError (.badNumeral field)

/-- Splits a value at its first colon. -/
def splitAtColon (cs : List Char) : Except ParseError (List Char × List Char) :=
  match cs.dropWhile (· != ':') with
  | [] => .error .noColon
  | _ :: rest => .ok (cs.takeWhile (· != ':'), rest)

def readFlags : Option (List Char) → Except ParseError Flags
  | none => .error .noFlags
  | some token =>
    match Flags.ofList? token with
    | none => .error .badFlags
    | some f => .ok f

/-- Reads the tokens of a trace line. -/
def ofTokens (ts : List (List Char)) : Except ParseError Snapshot := do
  let microword ← readMicroword ts[0]?
  let counter ← readNumeral .counter 16 32 (← readField .au ts[1]?)
  let alu ← readNumeral .alu 2 16 (← readField .alu ts[2]?)
  let aluExt ← readNumeral .aluExt 2 16 (← readField .alue ts[3]?)
  let aluBuf ← readNumeral .aluBuf 2 16 (← readField .alub ts[4]?)
  let (hi, lo) ← splitAtColon (← readField .rx ts[5]?)
  let dividendHi ← readNumeral .dividendHi 16 16 hi
  let dividendLo ← readNumeral .dividendLo 16 16 lo
  let divisor ← readNumeral .divisor 16 16 (← readField .ry ts[6]?)
  let flags ← readFlags ts[7]?
  let cycles ← readNumeral .cycles 10 64 (← readField .cyc ts[8]?)
  return { microword, counter, alu, aluExt, aluBuf, dividendHi, dividendLo, divisor, flags, cycles }

def ofLine (s : String) : Except ParseError Snapshot := ofTokens (Text.tokens s.toList)

end Snapshot

end DivisionMicrocode
