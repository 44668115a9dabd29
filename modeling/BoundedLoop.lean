import BoundedLoop.Value
import BoundedLoop.Lexeme
import BoundedLoop.Token.Scan
import BoundedLoop.Operator
import BoundedLoop.Scope
import BoundedLoop.Diagnostic
import BoundedLoop.Compile
import BoundedLoop.Bytecode.Listing
import BoundedLoop.Machine.Run
import BoundedLoop.Report
import BoundedLoop.CommandLine.Session
import BoundedLoop.Main
import BoundedLoop.Proofs.Acceptance
import BoundedLoop.Proofs.Correctness
import BoundedLoop.Proofs.StackDiscipline
import BoundedLoop.Proofs.WellFormed
import BoundedLoop.Proofs.Recovery
import BoundedLoop.Proofs.Portions
import BoundedLoop.Proofs.Progress.ReadingOn
import BoundedLoop.Proofs.Progress.Bounds
import BoundedLoop.Proofs.Progress
import BoundedLoop.Proofs.Bookkeeping
import BoundedLoop.Proofs.Renaming.InStep
import BoundedLoop.Proofs.Renaming.Parts
import BoundedLoop.Proofs.Renaming
import BoundedLoop.Proofs.AnyCode
import BoundedLoop.Proofs.TypedPrograms
import BoundedLoop.Proofs.Scanning
import BoundedLoop.Proofs.Truncation.Blind
import BoundedLoop.Proofs.Truncation
import BoundedLoop.Proofs.SourceOrder.Blocks
import BoundedLoop.Proofs.SourceOrder
import BoundedLoop.Proofs.Edits
import BoundedLoop.Proofs.Precedence
import BoundedLoop.Proofs.FirstViolation
import BoundedLoop.Proofs.FaultLines
import BoundedLoop.Proofs.LongestMatch
import BoundedLoop.Proofs.Lexing.Words
import BoundedLoop.Proofs.Lexing.Places
import BoundedLoop.Proofs.LeftmostProblem
import BoundedLoop.Proofs.Respacing
import BoundedLoop.Proofs.LetterCase
import BoundedLoop.Proofs.AfterFaults
import BoundedLoop.Proofs.FuelLimit
import BoundedLoop.Proofs.Appending
import BoundedLoop.Proofs.Decoding
import BoundedLoop.Proofs.LineLookup
import BoundedLoop.Proofs.ImpliedEnd
import BoundedLoop.Proofs.NeverNegative
import BoundedLoop.Proofs.Listing
import BoundedLoop.Proofs.NumberLiterals
