import Lox.Main
import Lox.Proofs.Agreement
import Lox.Proofs.Code.Binding
import Lox.Proofs.Code.Encoding
import Lox.Proofs.Code.Reading
import Lox.Proofs.Code.WellFormed
import Lox.Proofs.Compile.Renaming
import Lox.Proofs.Compile.Steady
import Lox.Proofs.Heap.Secure
import Lox.Proofs.Machine.Actions
import Lox.Proofs.Heap.History
import Lox.Proofs.Heap.Interning
import Lox.Proofs.Compile.Allocations
import Lox.Proofs.Machine.Instructions
import Lox.Proofs.Machine.Progress
import Lox.Proofs.Machine.Tidy
import Lox.Proofs.Session.History
import Lox.Proofs.Session.Safety
import Lox.Proofs.Session.Vacancy
import Lox.Proofs.Heap.Answers
import Lox.Proofs.Machine.Lockstep
import Lox.Proofs.Session.Twins
import Lox.Proofs.Reference.Echo
import Lox.Proofs.Reference.Instructions
import Lox.Proofs.Reference.Steps
import Lox.Proofs.Session.Sharing
import Lox.Proofs.Evaluation.Evaluator
import Lox.Proofs.Reference.Stack
import Lox.Proofs.Syntax.Binding
import Lox.Proofs.Syntax.Mentions
import Lox.Proofs.Compile.Checked
import Lox.Proofs.Compile.Recovery
import Lox.Proofs.Compile.Totality
import Lox.Proofs.Machine.Aloof
import Lox.Proofs.Machine.Conservation
import Lox.Proofs.Machine.Naming
import Lox.Proofs.Session.Side
import Lox.Proofs.Session.Rejection
import Lox.Proofs.Compile.Acceptance
import Lox.Proofs.Compile.Independence
import Lox.Proofs.Heap.Ledger
import Lox.Proofs.Machine.Abandoning
import Lox.Proofs.Session.Atomicity
import Lox.Proofs.Code.Relocation
import Lox.Proofs.Compile.Abreast
import Lox.Proofs.Compile.Abreast.Expressions
import Lox.Proofs.Compile.Abreast.Functions
import Lox.Proofs.Compile.Abreast.Statements
import Lox.Proofs.Session.Capacity
import Lox.Proofs.Session.OpenCells
import Lox.Proofs.Session.Globals
import Lox.Proofs.Compile.Abreast.Programs
import Lox.Proofs.Code.Alignment
import Lox.Proofs.Reference.Footing
import Lox.Proofs.Reference.Matching
import Lox.Proofs.Reference.Alongside
import Lox.Proofs.Reference.Relay
import Lox.Proofs.Reference.Opening
import Lox.Proofs.Session.Composition
import Lox.Proofs.Token.Exactness
import Lox.Proofs.Session.Framing
import Lox.Proofs.Machine.Tracing
import Lox.Proofs.Session.Traces
import Lox.Proofs.Session.Meaning
import Lox.Proofs.Console.Completeness
import Lox.Proofs.Console.Division
import Lox.Proofs.Number.Rounding
import Lox.Proofs.Number.Shortest
import Lox.Proofs.Number.Text
import Lox.Proofs.Machine.Printing
import Lox.Proofs.Session.Printouts
import Lox.Proofs.Heap.Threshold
import Lox.Proofs.Compile.Operands
import Lox.Proofs.Machine.Jumping
import Lox.Proofs.Machine.OpenCells
import Lox.Proofs.Compile.Surveyed
import Lox.Proofs.Compile.Jumps
