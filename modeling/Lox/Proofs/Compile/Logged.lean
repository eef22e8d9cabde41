import Mathlib.Control.Monad.Writer
import Lox.Proofs.Compile.Instrument

/-!
# The compiler with a log

What can be counted in one byte is limited. The compiler turns counts into bytes in several places
and looks at the limits in others, so here it writes both down: each number that it casts, with the
byte that comes of it, and each demand for one more constant, local, captured variable, parameter or
argument, with the number of those that are there. Otherwise the compiler is the same.

## Main definitions

* `Limit` — what is limited, how many there may be, and the complaint.
* `Entry` — a line of the log.
* `LogM` — steps of the compiler that write a log, which `LogM.forget` takes away.
* `Compiler.Logged` — the steps that write something.
* `Compiler.logger` — the instrument that writes the log.
* `compileLogged` — a whole program.
-/

namespace Lox

/-- What an operand of one byte limits. -/
inductive Limit where
  /-- The constants of a function. -/
  | constants
  /-- The locals of a function that are alive at once, with the one for the function itself. -/
  | locals
  /-- The variables that a function captures. -/
  | captures
  /-- The parameters of a function. -/
  | parameters
  /-- The arguments of a call. -/
  | arguments
  deriving DecidableEq, Repr

namespace Limit

/-- How many there may be. -/
def most : Limit → Nat
  | constants | locals | captures => 256
  | parameters | arguments => 255

/-- What is reported when there are more. -/
def issue : Limit → Issue
  | constants => .tooManyConstants
  | locals => .tooManyLocals
  | captures => .tooManyCaptures
  | parameters => .tooManyParameters
  | arguments => .tooManyArguments

end Limit

/-- A line of the log. -/
inductive Entry where
  /-- A number is cast to a byte. -/
  | cast (number : Nat) (byte : UInt8)
  /-- One more is demanded when so many are there. A complaint would be about the token, but it is
  withheld as long as an earlier error keeps up the alarm. -/
  | demand (limit : Limit) (present : Nat) (token : Token) (alarm : Option Diagnostic)
  deriving Repr

namespace Entry

/-- The error that withholds a complaint. -/
def alarm? : Entry → Option Diagnostic
  | cast _ _ => none
  | demand _ _ _ alarm => alarm

/-- The complaint about a demand that goes beyond its limit, unless it is withheld. -/
def complaint? : Entry → Option Diagnostic
  | cast _ _ => none
  | demand limit present token alarm =>
    if limit.most ≤ present ∧ alarm.isNone then some (.atToken token limit.issue) else none

end Entry

/-- A step of the compiler that writes a log. -/
abbrev LogM := WriterT (List Entry) CompileM

/-- The step without its log. -/
def LogM.forget {α : Type} (x : LogM α) : CompileM α := Prod.fst <$> x.run

namespace Compiler.Logged

/-! ### Entries -/

/-- Writes a line. -/
def note (entry : Entry) : LogM Unit := tell [entry]

/-- A number as a byte. -/
def byteOf (number : Nat) : LogM UInt8 := do
  note (.cast number (UInt8.ofNat number))
  return UInt8.ofNat number

/-- Demands one more, about which a complaint would be made at the token consumed last. -/
def demand (limit : Limit) (present : Nat) : LogM Unit := do
  let c ← get
  note (.demand limit present c.previous c.alarm)

/-! ### Constants and variables -/

@[inherit_doc Compiler.makeConstant]
def makeConstant (value : Value) : LogM UInt8 := do
  let chunk := (← get).draft.chunk
  demand .constants chunk.constants.size
  if chunk.constants.size < Chunk.maxConstants then
    modifyDraft fun d => { d with chunk := { chunk with constants := chunk.constants.push value } }
    byteOf chunk.constants.size
  else
    complain .tooManyConstants
    return 0

@[inherit_doc Compiler.nameConstant]
def nameConstant (name : String) : LogM UInt8 := do
  makeConstant (.object (← intern name))

@[inherit_doc Compiler.addLocal]
def addLocal (name : String) : LogM Unit := do
  demand .locals (← get).draft.locals.length
  Compiler.addLocal name

/-- Mentions a local, and gives its slot as an operand. -/
def mention (found : Nat × Local) : LogM UInt8 := do
  ((Draft.mentionIssues found.2).forM complain : CompileM Unit)
  byteOf found.1

@[inherit_doc Draft.addCapture]
def addCapture (d : Draft) (wanted : Capture) : LogM (UInt8 × Draft) :=
  match d.captures.findIdx? (· = wanted) with
  | some i => do return (← byteOf i, d)
  | none => do
    demand .captures d.captures.size
    if d.captures.size = Draft.maxCaptures then
      complain .tooManyCaptures
      return (0, d)
    else return (← byteOf d.captures.size, { d with captures := d.captures.push wanted })

@[inherit_doc Draft.capture?]
def capture? (name : String) (d : Draft) : List Draft → LogM (Option UInt8 × Draft × List Draft)
  | [] => return (none, d, [])
  | outer :: others =>
    match outer.local? name with
    | some found => do
      let slot ← mention found
      let (index, d) ← addCapture d ⟨slot, true⟩
      let outer := { outer with locals := Draft.captureLocal slot.toNat outer.locals }
      return (some index, d, outer :: others)
    | none => do
      let (passed, outer, others) ← capture? name outer others
      match passed with
      | none => return (none, d, outer :: others)
      | some passed =>
        let (index, d) ← addCapture d ⟨passed, false⟩
        return (some index, d, outer :: others)

@[inherit_doc Compiler.resolveCapture]
def resolveCapture (name : String) : LogM (Option UInt8) := do
  let c ← get
  let (index, draft, enclosing) ← capture? name c.draft c.enclosing
  modify fun c => { c with draft, enclosing }
  return index

@[inherit_doc Compiler.resolve]
def resolve (name : String) : LogM Reference := do
  match (← get).draft.local? name with
  | some found => return .slot (← mention found)
  | none =>
    match ← resolveCapture name with
    | some index => return .upvalue index
    | none => return .global (← nameConstant name)

/-! ### Arguments and parameters -/

@[inherit_doc Compiler.countArgument]
def countArgument (count : Nat) : LogM Unit := do
  demand .arguments count
  Compiler.countArgument count

@[inherit_doc Compiler.emitCall]
def emitCall (count : Nat) : LogM Unit := do
  note (.cast count (UInt8.ofNat (min count Draft.maxArity)))
  Compiler.emitCall count

@[inherit_doc Compiler.countParameter]
def countParameter : LogM Unit := do
  let c ← get
  note (.demand .parameters c.draft.arity c.current c.alarm)
  Compiler.countParameter

end Compiler.Logged

/-- The instrument that writes a log. -/
def Compiler.logger : Compiler.Instrument LogM :=
  { Compiler.Instrument.bare with
    makeConstant := Compiler.Logged.makeConstant
    addLocal := Compiler.Logged.addLocal
    resolve := Compiler.Logged.resolve
    countArgument := Compiler.Logged.countArgument
    emitCall := Compiler.Logged.emitCall
    countParameter := Compiler.Logged.countParameter }

/-- Compiles a program, and gives the log besides. -/
def compileLogged (tokens : TokenStream) (held : List Handle) :
    HeapM (Except (List Diagnostic) Handle × List Entry) := fun heap =>
  match (Compiler.logger.program (tokens.pending.length + 2)).run (.start tokens held heap) with
  | .ok (script, log) c =>
    .ok (if c.reported.isEmpty then .ok script else .error c.reported.toList, log) c.heap
  | .error fault c => .error fault c.heap

end Lox
