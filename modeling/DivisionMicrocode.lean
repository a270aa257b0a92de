import DivisionMicrocode.Observation
import DivisionMicrocode.Snapshot.Parser
import DivisionMicrocode.Timing
import DivisionMicrocode.Proofs.LongDivision
import DivisionMicrocode.Proofs.WordArithmetic
import DivisionMicrocode.Proofs.Path
import DivisionMicrocode.Proofs.Round
import DivisionMicrocode.Proofs.UnsignedCourse
import DivisionMicrocode.Proofs.SignFixup
import DivisionMicrocode.Proofs.SignedCourse
import DivisionMicrocode.Proofs.Clocks
import DivisionMicrocode.Proofs.Results
import DivisionMicrocode.Proofs.TruncatedDivision
import DivisionMicrocode.Proofs.MagnitudeDivision
import DivisionMicrocode.Proofs.ObservedCourse
import DivisionMicrocode.Proofs.Events
import DivisionMicrocode.Proofs.ScratchRegisters
import DivisionMicrocode.Proofs.LoopCounter
import DivisionMicrocode.Proofs.ClockOverflow
import DivisionMicrocode.Proofs.FinalRegisters
import DivisionMicrocode.Proofs.FailedDivision
import DivisionMicrocode.Proofs.UnsignedTiming
import DivisionMicrocode.Proofs.OperandsKept
import DivisionMicrocode.Proofs.Numerals
import DivisionMicrocode.Proofs.TraceLines
import DivisionMicrocode.Proofs.LineGrammar
import DivisionMicrocode.Proofs.JournalHistory
import DivisionMicrocode.Proofs.LogStream
import DivisionMicrocode.Proofs.LogDelivery
import DivisionMicrocode.Proofs.LoggedDivision
import DivisionMicrocode.Proofs.LineFaults
import DivisionMicrocode.Proofs.BoundedStack
import DivisionMicrocode.Proofs.RoundEvents
import DivisionMicrocode.Proofs.ExtendedSubtraction
