import Lox.Proofs.Code.Template
import Lox.Session

/-!
# The reference machine

The reference machine says what captured variables mean. It runs the same code as the machine,
but it has no cells that are open or closed, and no heap. Every value that comes to lie on the
stack gets a *location* that has never been used before; so each time a local is declared and
each time a parameter is bound, the variable is a new location. Locals are read and assigned
through their locations, a closure captures locations, and a variable that leaves the stack is
simply forgotten by it: `closeUpvalue` is `pop`.

Values are *data* here. A text is a datum by itself, and whatever can be called is known by the
number under which it was made. Nothing is ever freed.

## Main definitions

* `Datum` — what a location holds.
* `HostFunction.onData` — a host function applied to data.
* `Reference` — the machine, with `Reference.step` and `Reference.run`.
* `Reference.start` — calling a script.
-/

namespace Lox

/-! ### Data -/

/-- What a location holds. -/
inductive Datum where
  | nil
  | bool (b : Bool)
  | number (x : Float)
  | text (s : String)
  /-- Something that can be called, by its number. -/
  | callable (id : Nat)
  deriving Inhabited

namespace Datum

/-- Only `nil` and `false` count as false. -/
def isFalsey : Datum → Bool
  | nil => true
  | bool b => !b
  | _ => false

/-- The equality of the language. -/
def same : Datum → Datum → Bool
  | nil, nil => true
  | bool a, bool b => a = b
  | number x, number y => x == y
  | text s, text t => s = t
  | callable a, callable b => a = b
  | _, _ => false

end Datum

namespace HostFunction

/-- The value that stands for a datum among the arguments of a call. Texts and callables are
known by the place of the first argument that is the same. -/
def encode (args : List Datum) : Datum → Value
  | .nil => .nil
  | .bool b => .bool b
  | .number x => .number x
  | .text s => .object ⟨args.findIdx (Datum.same (.text s))⟩
  | .callable id => .object ⟨args.findIdx (Datum.same (.callable id))⟩

/-- The datum that a value stands for among the arguments of a call. -/
def decode (args : List Datum) : Value → Datum
  | .nil => .nil
  | .bool b => .bool b
  | .number x => .number x
  | .object h => args.getD h.index .nil

/-- A host function applied to data. It is given stand-ins for texts and callables, and makes
nothing of them but its result. -/
def onData (run : HostFunction) (reading : Float) (args : List Datum) : Datum :=
  decode args (run reading (args.map (encode args)).toArray)

end HostFunction

/-! ### The machine -/

namespace Reference

/-- A function together with the locations that it has captured. -/
structure Closure where
  /-- The function. -/
  template : Template
  /-- Its constants. -/
  constants : List Constant
  /-- The locations captured so far, in the order in which the function counts them. -/
  captured : Array Nat := #[]

/-- What can be called. -/
inductive Callable where
  | closure (c : Closure)
  | native (n : Native)

/-- An active call. -/
structure Activation where
  /-- The closure that was called. -/
  callee : Nat
  /-- The offset of the next byte of code. -/
  ip : Nat := 0
  /-- The stack slot of the callee. The arguments and the other locals are above it. -/
  base : Nat

end Reference

/-- The reference machine. -/
structure Reference where
  /-- Everything that can be called, by its number. -/
  callables : Array Reference.Callable := #[]
  /-- What each location holds. -/
  store : Array Datum := #[]
  /-- The locations of locals and of unfinished expressions. -/
  stack : Array Nat := #[]
  /-- The active calls, innermost first. -/
  calls : List Reference.Activation := []
  /-- The globals. -/
  globals : String → Option Datum := fun _ => none
  /-- What has been printed. -/
  printout : Printout
  /-- How many values the stack may hold. -/
  stackMax : Nat
  /-- The reading of the host's clock at each call of a host function. -/
  clock : Nat → Float
  /-- How many calls of host functions there have been. -/
  hostCalls : Nat := 0

namespace Reference

/-- A step of the reference machine. -/
abbrev Act := EStateM Interruption Reference

/-- Gets stuck. -/
def stuck {α : Type} : Act α := throw (.fault .outOfRange)

/-- What must be there. -/
def demand {α : Type} : Option α → Act α
  | some a => pure a
  | none => stuck

/-! ### Questions -/

/-- The closure of a number. -/
def closure? (r : Reference) (id : Nat) : Option Closure :=
  match r.callables[id]? with
  | some (.closure c) => some c
  | _ => none

/-- The text of a function. -/
def displayTemplate (t : Template) : String :=
  match t.name with
  | none => "<script>"
  | some name => "<fn " ++ name ++ ">"

/-- The text of a datum, as a program prints it. -/
def display (r : Reference) : Datum → Option String
  | .nil => some "nil"
  | .bool b => some (if b then "true" else "false")
  | .number x => some (Number.text x)
  | .text s => some s
  | .callable id =>
    match r.callables[id]? with
    | some (.closure c) => some (displayTemplate c.template)
    | some (.native _) => some "<native fn>"
    | none => none

/-- The line of a trace for an active call. -/
def line (r : Reference) (a : Activation) : Option TraceLine := do
  let c ← r.closure? a.callee
  let line ← c.template.lines[a.ip - 1]?
  return ⟨c.template.name, line⟩

/-- What the location of a stack slot holds. -/
def slot? (r : Reference) (i : Nat) : Option Datum := r.stack[i]?.bind (r.store[·]?)

/-! ### The stack and the locations -/

/-- Raises a runtime error. -/
def raise {α : Type} (cause : Cause) : Act α := do
  let r ← get
  let trace ← demand (r.calls.mapM r.line)
  modify fun r => { r with stack := #[], calls := [] }
  throw (.raised ⟨cause, trace⟩)

/-- Pushes a datum, in a location of its own. -/
def push (d : Datum) : Act Unit := fun r =>
  if r.stackMax ≤ r.stack.size then raise .stackOverflow r
  else .ok () { r with store := r.store.push d, stack := r.stack.push r.store.size }

/-- Pops a datum. An empty stack gives `nil`. -/
def pop : Act Datum := do
  let r ← get
  modify fun r => { r with stack := r.stack.pop }
  return (r.slot? (r.stack.size - 1)).getD .nil

/-- The datum that lies under a given count of others. -/
def peek (depth : Nat) : Act Datum := do
  let r ← get
  if depth < r.stack.size then demand (r.slot? (r.stack.size - 1 - depth)) else stuck

/-- Shortens the stack to a size. -/
def truncate (size : Nat) : Act Unit := modify fun r => { r with stack := r.stack.shrink size }

/-- The location of a stack slot. -/
def location (slot : Nat) : Act Nat := do demand (← get).stack[slot]?

/-- Reads a location. -/
def read (location : Nat) : Act Datum := do demand (← get).store[location]?

/-- Assigns a location. -/
def write (location : Nat) (d : Datum) : Act Unit :=
  modify fun r => { r with store := r.store.setIfInBounds location d }

/-! ### Reading code -/

/-- The innermost call. -/
def activation : Act Activation := do demand (← get).calls.head?

/-- The closure of the innermost call. -/
def current : Act Closure := do
  let a ← activation
  demand ((← get).closure? a.callee)

/-- Moves the innermost call to an offset of its code. -/
def setIp (ip : Nat) : Act Unit :=
  modify fun r =>
    match r.calls with
    | [] => r
    | a :: outer => { r with calls := { a with ip } :: outer }

/-- The next byte of code. -/
def readByte : Act UInt8 := do
  let ip := (← activation).ip
  let byte ← demand (← current).template.code[ip]?
  setIp (ip + 1)
  return byte

/-- The operand of an operation at an offset of some code. -/
def operandAt? (code : List UInt8) (op : OpCode) (offset : Nat) : Option Nat :=
  Machine.operandAt? { code := code.toArray } op offset

/-- The next instruction: an operation and its operand. -/
def fetch : Act (OpCode × Nat) := do
  let ip := (← activation).ip
  let code := (← current).template.code
  let byte ← demand code[ip]?
  let op ← demand (OpCode.ofByte? byte)
  let operand ← demand (operandAt? code op (ip + 1))
  setIp (ip + 1 + op.width)
  return (op, operand)

/-- A constant of the innermost call. -/
def constant (index : Nat) : Act Constant := do demand (← current).constants[index]?

/-- A constant that names a global. -/
def nameConstant (index : Nat) : Act String := do
  match ← constant index with
  | .text name => return name
  | _ => stuck

/-- A constant as a datum. -/
def literal (index : Nat) : Act Datum := do
  match ← constant index with
  | .number x => return .number x
  | .text s => return .text s
  | .function _ _ => stuck

/-- A location that the innermost call has captured. -/
def captured (index : Nat) : Act Nat := do demand (← current).captured[index]?

/-! ### Globals -/

/-- Sets a global, whether or not it exists. -/
def setGlobal (name : String) (d : Datum) : Act Unit :=
  modify fun r =>
    { r with globals := fun other => if other = name then some d else r.globals other }

/-- Reads a global. -/
def readGlobal (name : String) : Act Datum := do
  match (← get).globals name with
  | some d => return d
  | none => raise (.undefinedVariable name)

/-- Assigns a global that exists. -/
def assignGlobal (name : String) : Act Unit := do
  if ((← get).globals name).isSome then setGlobal name (← peek 0)
  else raise (.undefinedVariable name)

/-! ### Operators -/

/-- Replaces the two numbers on top of the stack. -/
def binary (operation : Float → Float → Datum) : Act Unit := do
  let left ← peek 1
  let right ← peek 0
  match left, right with
  | .number x, .number y =>
    let _ ← pop
    let _ ← pop
    push (operation x y)
  | _, _ => raise .operandsNotNumbers

/-- Adds two numbers or joins two texts. -/
def add : Act Unit := do
  let left ← peek 1
  let right ← peek 0
  match left, right with
  | .number x, .number y =>
    let _ ← pop
    let _ ← pop
    push (.number (x + y))
  | .text s, .text t =>
    let _ ← pop
    let _ ← pop
    push (.text (s ++ t))
  | _, _ => raise .operandsNotAddable

/-- Changes the sign of the number on top of the stack. -/
def negate : Act Unit := do
  match ← peek 0 with
  | .number x =>
    let _ ← pop
    push (.number (-x))
  | _ => raise .operandNotNumber

/-! ### Calls -/

/-- Starts a call of a closure, whose arguments lie on top of the stack. -/
def call (callee : Nat) (count : Nat) : Act Unit := do
  let r ← get
  let c ← demand (r.closure? callee)
  if count ≠ c.template.arity then raise (.arityMismatch c.template.arity count)
  else if r.calls.length = Machine.maxFrames then raise .stackOverflow
  else if r.stack.size ≤ count then stuck
  else
    let base := r.stack.size - count - 1
    modify fun r => { r with calls := { callee, base } :: r.calls }

/-- The data in the stack slots from a given one on. -/
def dataFrom (r : Reference) (base : Nat) : List Datum :=
  (r.stack.toList.drop base).map fun location => r.store.getD location .nil

/-- Calls a host function. The callee and the arguments make room for the result. -/
def callNative (native : Native) (count : Nat) : Act Unit := do
  let r ← get
  let base := r.stack.size - count
  let result := native.run.onData (r.clock r.hostCalls) (r.dataFrom base)
  modify fun r => { r with hostCalls := r.hostCalls + 1 }
  truncate (base - 1)
  push result

/-- Calls the datum under the arguments. -/
def callDatum (count : Nat) : Act Unit := do
  match ← peek count with
  | .callable id =>
    match ← demand (← get).callables[id]? with
    | .closure _ => call id count
    | .native native => callNative native count
  | _ => raise .notCallable

/-- Makes something that can be called, and gives its number. -/
def make (c : Callable) : Act Nat := fun r =>
  .ok r.callables.size { r with callables := r.callables.push c }

/-- Adds a location to those that a closure has captured. -/
def capture (id : Nat) (location : Nat) : Act Unit := do
  let c ← demand ((← get).closure? id)
  modify fun r => { r with
    callables := r.callables.setIfInBounds id
      (.closure { c with captured := c.captured.push location }) }

/-- Reads how the next variable is captured, and gives its location to the closure. -/
def captureNext (id : Nat) : Act Unit := do
  let isLocal := (← readByte) = 1
  let index := (← readByte).toNat
  let found ← if isLocal then location ((← activation).base + index) else captured index
  capture id found

/-- Captures a given count of variables. -/
def captureAll (id : Nat) : (count : Nat) → Act Unit
  | 0 => pure ()
  | count + 1 => do
    captureNext id
    captureAll id count

/-- Makes a closure of the function in a constant. -/
def makeClosure (index : Nat) : Act Unit := do
  match ← constant index with
  | .function template constants =>
    let id ← make (.closure { template, constants })
    push (.callable id)
    captureAll id template.upvalueCount
  | _ => stuck

/-- Ends the innermost call. Its variables leave the stack and its result takes the place of
the callee; the end of the script ends the run. -/
def giveBack : Act Status := do
  let result ← pop
  match (← get).calls with
  | [] => return .halted
  | a :: outer =>
    modify fun r => { r with calls := outer }
    truncate a.base
    if outer.isEmpty then return .halted
    push result
    return .running

/-! ### Control -/

/-- Jumps over a count of bytes. -/
def jump (distance : Nat) : Act Unit := do setIp ((← activation).ip + distance)

/-- Jumps back over a count of bytes. -/
def jumpBack (distance : Nat) : Act Unit := do
  let ip := (← activation).ip
  if distance ≤ ip then setIp (ip - distance) else stuck

/-- Prints the datum on top of the stack. -/
def print : Act Unit := do
  let d ← pop
  let text ← demand ((← get).display d)
  modify fun r => { r with printout := r.printout.writeLine text }

/-- The meaning of an instruction other than the end of a call. -/
def execute : OpCode → (operand : Nat) → Act Unit
  | .constant, index => do push (← literal index)
  | .pushNil, _ => push .nil
  | .pushTrue, _ => push (.bool true)
  | .pushFalse, _ => push (.bool false)
  | .pop, _ => do let _ ← pop
  | .getLocal, index => do push (← read (← location ((← activation).base + index)))
  | .setLocal, index => do
    let a ← activation
    let d ← peek 0
    write (← location (a.base + index)) d
  | .getGlobal, index => do push (← readGlobal (← nameConstant index))
  | .defineGlobal, index => do
    setGlobal (← nameConstant index) (← peek 0)
    let _ ← pop
  | .setGlobal, index => do assignGlobal (← nameConstant index)
  | .getUpvalue, index => do push (← read (← captured index))
  | .setUpvalue, index => do write (← captured index) (← peek 0)
  | .equal, _ => do
    let right ← pop
    let left ← pop
    push (.bool (left.same right))
  | .greater, _ => binary fun x y => .bool (y < x)
  | .less, _ => binary fun x y => .bool (x < y)
  | .add, _ => add
  | .subtract, _ => binary fun x y => .number (x - y)
  | .multiply, _ => binary fun x y => .number (x * y)
  | .divide, _ => binary fun x y => .number (x / y)
  | .not, _ => do push (.bool (← pop).isFalsey)
  | .negate, _ => negate
  | .print, _ => print
  | .jump, distance => jump distance
  | .jumpIfFalse, distance => do if (← peek 0).isFalsey then jump distance
  | .loop, distance => jumpBack distance
  | .call, count => callDatum count
  | .closure, index => makeClosure index
  | .closeUpvalue, _ => do let _ ← pop
  | .giveBack, _ => pure ()

/-- Reads and executes one instruction. -/
def step : Act Status := do
  let (op, operand) ← fetch
  if op = .giveBack then giveBack
  else
    execute op operand
    return .running

/-- Runs until the script ends, for at most a given count of instructions. -/
def run : (budget : Nat) → Act Status
  | 0 => return .running
  | budget + 1 => do
    match ← step with
    | .halted => return .halted
    | .running => run budget

/-! ### Scripts and sessions -/

/-- Calls a function as a script. -/
def start (template : Template) (constants : List Constant) : Act Unit := do
  let id ← make (.closure { template, constants })
  push (.callable id)
  call id 0

/-- Runs a function as a script and sees how it ended. -/
def runScript (budget : Nat) (template : Template) (constants : List Constant) :
    EStateM Fault Reference Outcome := fun r =>
  match (do start template constants; run budget : Act Status) r with
  | .ok .halted r => .ok .finished r
  | .ok .running r => .ok .paused r
  | .error (.raised e) r => .ok (.failed e) r
  | .error (.fault f) r => .error f r

/-- Makes a host function known under a name. -/
def bind (r : Reference) (name : String) (run : HostFunction) : Reference :=
  { r with
    callables := r.callables.push (.native { name, run })
    globals := fun other =>
      if other = name then some (.callable r.callables.size) else r.globals other }

/-- A new reference machine, which knows the clock. -/
def new (settings : Settings) (clock : Nat → Float) : Reference :=
  Reference.bind
    { printout := { capacity := settings.outputCapacity }, stackMax := settings.stackMax, clock }
    "clock" Session.clockFunction

end Reference

end Lox
