import Lox.Machine.Basic

/-!
# Instructions

One step of the machine reads one instruction of the innermost call and executes it.

## Main definitions

* `Machine.fetch` — the next instruction.
* `Machine.execute` — the meaning of an instruction.
* `Machine.step`, `Machine.run`.
-/

namespace Lox

/-- Whether a machine has more to do. -/
inductive Status where
  | running | halted
  deriving DecidableEq, Repr

namespace Machine

/-! ### Reading code -/

/-- The innermost call. -/
@[inline] def frame : Action Frame := do demand (← get).frames.head?

/-- Moves the innermost call to an offset of its code. -/
@[inline] def setIp (ip : Nat) : Action Unit :=
  modify fun m =>
    match m.frames with
    | [] => m
    | frame :: outer => { m with frames := { frame with ip } :: outer }

/-- The code of the innermost call. -/
@[inline] def chunk : Action Chunk := do
  let frame ← frame
  return (← ask (·.heap.function frame.function)).chunk

/-- The next byte of code. -/
@[inline] def readByte : Action UInt8 := do
  let ip := (← frame).ip
  let byte ← demand (← chunk).code[ip]?
  setIp (ip + 1)
  return byte

/-- The operand of an operation at an offset of the code. -/
def operandAt? (c : Chunk) (op : OpCode) (offset : Nat) : Option Nat :=
  match op.width with
  | 0 => some 0
  | 1 => c.code[offset]?.map UInt8.toNat
  | _ => c.pairAt? offset

/-- The next instruction: an operation and its operand. -/
@[inline] def fetch : Action (OpCode × Nat) := do
  let ip := (← frame).ip
  let c ← chunk
  let byte ← demand c.code[ip]?
  match OpCode.ofByte? byte with
  | none =>
    setIp (ip + 1)
    raise (.unknownOpCode byte)
  | some op =>
    let operand ← demand (operandAt? c op (ip + 1))
    setIp (ip + 1 + op.width)
    return (op, operand)

/-- A constant of the innermost call. -/
@[inline] def constant (index : Nat) : Action Value := do demand (← chunk).constants[index]?

/-- A constant that names a global. -/
def nameConstant (index : Nat) : Action Handle := do
  let value ← constant index
  match value with
  | .object h =>
    if ← ask (·.heap.isString value) then return h
    else raise (.nameExpected (← ask (·.heap.display value)))
  | _ => raise (.nameExpected (← ask (·.heap.display value)))

/-! ### Variables -/

/-- Reads a global. -/
@[inline] def readGlobal (name : Handle) : Action Value := do
  match (← get).globals[name]? with
  | some value => return value
  | none => raise (.undefinedVariable (← ask (·.heap.string name)))

/-- Sets a global, whether or not it exists. -/
@[inline] def setGlobal (name : Handle) (value : Value) : Action Unit :=
  modify fun m => { m with globals := m.globals.insert name value }

/-- Assigns a global that exists. -/
def assignGlobal (name : Handle) : Action Unit := do
  if (← get).globals.contains name then setGlobal name (← peek 0)
  else raise (.undefinedVariable (← ask (·.heap.string name)))

/-- A cell that the innermost call has captured. -/
def capturedCell (index : Nat) : Action Handle := do
  let frame ← frame
  demand (← ask (·.heap.closure frame.closure)).cells[index]?

/-- The value of a captured variable. -/
def readCell (cell : Handle) : Action Value := do
  match ← ask (·.heap.cell cell) with
  | .opened slot => slotValue slot
  | .closed value => return value

/-- Assigns a captured variable. -/
def writeCell (cell : Handle) (value : Value) : Action Unit := do
  match ← ask (·.heap.cell cell) with
  | .opened slot => setSlot slot value
  | .closed _ => onHeap (Heap.setCell cell (.closed value))

/-! ### Operators -/

/-- Replaces the two numbers on top of the stack. -/
@[inline] def binary (operation : Float → Float → Value) : Action Unit := do
  let left ← peek 1
  let right ← peek 0
  match left, right with
  | .number x, .number y =>
    let _ ← pop
    let _ ← pop
    push (operation x y)
  | _, _ => raise .operandsNotNumbers

/-- Adds two numbers or joins two strings. The strings stay on the stack until the result
exists, so that a collection keeps them. -/
def add : Action Unit := do
  let left ← peek 1
  let right ← peek 0
  match left, right with
  | .number x, .number y =>
    let _ ← pop
    let _ ← pop
    push (.number (x + y))
  | .object g, .object h =>
    if !(← ask (·.heap.isString left)) then raise .operandsNotAddable
    else if !(← ask (·.heap.isString right)) then raise .operandsNotAddable
    else
      let joined ← concat g h
      let _ ← pop
      let _ ← pop
      push (.object joined)
  | _, _ => raise .operandsNotAddable

/-- Changes the sign of the number on top of the stack. -/
def negate : Action Unit := do
  match ← peek 0 with
  | .number x =>
    let _ ← pop
    push (.number (-x))
  | _ => raise .operandNotNumber

/-! ### Calls -/

/-- Starts a call of a closure, whose arguments lie on top of the stack. -/
def call (closure : Handle) (count : Nat) : Action Unit := do
  let function := (← ask (·.heap.closure closure)).function
  let arity := (← ask (·.heap.function function)).arity
  let m ← get
  if count ≠ arity then raise (.arityMismatch arity count)
  else if m.frames.length = maxFrames then raise .stackOverflow
  else if m.stack.size ≤ count then stop .outOfRange
  else
    let slots := m.stack.size - count - 1
    modify fun m => { m with frames := { closure, function, slots } :: m.frames }

/-- Calls a host function. The callee and the arguments make room for the result. -/
def callNative (native : Native) (count : Nat) : Action Unit := do
  let m ← get
  let base := m.stack.size - count
  let result := native.run (m.clock m.hostCalls) (m.stack.extract base m.stack.size)
  modify fun m => { m with hostCalls := m.hostCalls + 1 }
  truncate (base - 1)
  push result

/-- Calls the value under the arguments. -/
def callValue (count : Nat) : Action Unit := do
  match ← peek count with
  | .object h =>
    match ← ask (·.heap.kind h) with
    | .closure => call h count
    | .native => callNative (← ask (·.heap.native h)) count
    | _ => raise .notCallable
  | _ => raise .notCallable

/-- Reads how the next variable is captured, and gives its cell to the closure. -/
def captureNext (closure : Handle) : Action Unit := do
  let isLocal := (← readByte) = 1
  let index := (← readByte).toNat
  let cell ← if isLocal then openCell ((← frame).slots + index) else capturedCell index
  onHeap (Heap.capture closure cell)

/-- Captures a given count of variables. -/
def captureAll (closure : Handle) : (count : Nat) → Action Unit
  | 0 => pure ()
  | count + 1 => do
    captureNext closure
    captureAll closure count

/-- Makes a closure of the function in a constant. The closure is on the stack while it
captures its variables, so that a collection keeps it. -/
def makeClosure (index : Nat) : Action Unit := do
  match ← constant index with
  | .object function =>
    let closure ← allocateClosure function
    push (.object closure)
    captureAll closure (← ask (·.heap.function function)).upvalueCount
  | _ => raise .functionExpected

/-- Ends the innermost call. Its variables leave the stack and its result takes the place of
the callee; the end of the script ends the run. -/
def giveBack : Action Status := do
  let result ← pop
  match (← get).frames with
  | [] => return .halted
  | frame :: outer =>
    modify fun m => { m with frames := outer }
    closeFrom frame.slots
    truncate frame.slots
    if outer.isEmpty then return .halted
    push result
    return .running

/-! ### Control -/

/-- Jumps over a count of bytes. -/
@[inline] def jump (distance : Nat) : Action Unit := do setIp ((← frame).ip + distance)

/-- Jumps back over a count of bytes. -/
@[inline] def jumpBack (distance : Nat) : Action Unit := do
  let ip := (← frame).ip
  if distance ≤ ip then setIp (ip - distance) else stop .outOfRange

/-- Prints the value on top of the stack. -/
def print : Action Unit := do
  let value ← pop
  let text ← ask (·.heap.display value)
  modify fun m => { m with printout := m.printout.writeLine text }

/-- Takes a captured variable off the stack. -/
def closeTop : Action Unit := do
  let size := (← get).stack.size
  if size = 0 then stop .outOfRange
  closeFrom (size - 1)
  let _ ← pop

/-- The meaning of an instruction other than the end of a call. -/
def execute : OpCode → (operand : Nat) → Action Unit
  | .constant, index => do push (← constant index)
  | .pushNil, _ => push .nil
  | .pushTrue, _ => push (.bool true)
  | .pushFalse, _ => push (.bool false)
  | .pop, _ => do let _ ← pop
  | .getLocal, index => do push (← slotValue ((← frame).slots + index))
  | .setLocal, index => do setSlot ((← frame).slots + index) (← peek 0)
  | .getGlobal, index => do push (← readGlobal (← nameConstant index))
  | .defineGlobal, index => do
    setGlobal (← nameConstant index) (← peek 0)
    let _ ← pop
  | .setGlobal, index => do assignGlobal (← nameConstant index)
  | .getUpvalue, index => do push (← readCell (← capturedCell index))
  | .setUpvalue, index => do writeCell (← capturedCell index) (← peek 0)
  | .equal, _ => do
    let right ← pop
    let left ← pop
    push (.bool (left.same right))
  | .greater, _ => binary fun x y => .bool (y < x)
  | .less, _ => binary fun x y => .bool (x < y)
  | .add, _ => add
  | .subtract, _ => binary fun x y => .number (x - y)
  | .multiply, _ => binary fun x y => .number (x * y)
  | .divide, _ => binary fun x y => .number (x / y)
  | .not, _ => do push (.bool (← pop).isFalsey)
  | .negate, _ => negate
  | .print, _ => print
  | .jump, distance => jump distance
  | .jumpIfFalse, distance => do if (← peek 0).isFalsey then jump distance
  | .loop, distance => jumpBack distance
  | .call, count => callValue count
  | .closure, index => makeClosure index
  | .closeUpvalue, _ => closeTop
  | .giveBack, _ => pure ()

/-- Reads and executes one instruction. -/
def step : Action Status := do
  let (op, operand) ← fetch
  if op = .giveBack then giveBack
  else
    execute op operand
    return .running

/-- Runs until the script ends, for at most a given count of instructions. -/
def run : (budget : Nat) → Action Status
  | 0 => return .running
  | budget + 1 => do
    match ← step with
    | .halted => return .halted
    | .running => run budget

end Machine

end Lox
