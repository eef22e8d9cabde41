import Lox.Heap.Allocate
import Lox.Machine.OpenCells
import Lox.Machine.Printout
import Lox.Machine.RuntimeError

/-!
# The machine

The state of a running program: the heap, the stack of values, the active calls, the
globals and the open cells. A step of the machine is an `Action`: it may go on, raise a
runtime error, or fault.

The machine does not look at the host's clock by itself. It is given all readings of it in
advance, one for each call of a host function.

## Main definitions

* `Settings`, `Frame`, `Machine`, `Action`.
* `Machine.push`, `Machine.pop`, `Machine.peek` — the stack.
* `Machine.closeFrom` — cells whose variables leave the stack.
* `Machine.raise` — a runtime error.
-/

namespace Lox

/-- The settings of a machine. -/
structure Settings where
  /-- How many values the stack may hold. -/
  stackMax : Nat := 16384
  /-- How many bytes of output are held for the host. -/
  outputCapacity : Nat := 1048576
  /-- When to collect. -/
  policy : Policy := {}
  deriving Repr

/-- An active call. -/
structure Frame where
  /-- The closure that was called. -/
  closure : Handle
  /-- Its function. -/
  function : Handle
  /-- The offset of the next byte of code. -/
  ip : Nat := 0
  /-- The stack slot of the callee. The arguments and the other locals are above it. -/
  slots : Nat
  deriving DecidableEq, Repr

/-- Handles are ordered by their places, each equal only to itself. -/
instance : Std.LawfulEqCmp (compareOn Handle.index) where
  eq_of_compare {a b} h := by
    cases a; cases b
    simpa [compareOn, Std.compare_eq_iff_eq] using h

/-- The globals, by the handles of their names. Interning makes a handle as good as a
name. -/
abbrev Globals := Std.TreeMap Handle Value (compareOn Handle.index)

/-- A machine. -/
structure Machine where
  /-- The objects. -/
  heap : Heap
  /-- The values of locals and of unfinished expressions. -/
  stack : Array Value := #[]
  /-- The active calls, innermost first. -/
  frames : List Frame := []
  /-- The globals. -/
  globals : Globals := ∅
  /-- The captured variables that still live on the stack. -/
  openCells : OpenCells := {}
  /-- What has been printed. -/
  printout : Printout
  /-- What has been reported. -/
  diagnostics : String := ""
  /-- How many values the stack may hold. -/
  stackMax : Nat
  /-- The reading of the host's clock at each call of a host function. -/
  clock : Nat → Float
  /-- How many calls of host functions there have been. -/
  hostCalls : Nat := 0

/-- Why an action does not go on. -/
inductive Interruption where
  | fault (f : Fault)
  | raised (e : RuntimeError)

/-- A step of a machine. -/
abbrev Action := EStateM Interruption Machine

namespace Machine

/-- How many calls may be active at once. -/
def maxFrames : Nat := 64

/-- Stops the machine for good. -/
@[inline] def stop {α : Type} (f : Fault) : Action α := throw (.fault f)

/-- Looks something up that may fault. -/
@[inline] def ask {α : Type} (question : Machine → Except Fault α) : Action α := fun m =>
  match question m with
  | .ok a => .ok a m
  | .error f => .error (.fault f) m

/-- A value that must be there. -/
@[inline] def demand {α : Type} : Option α → Action α
  | some a => pure a
  | none => stop .outOfRange

/-- Runs an operation of the heap. -/
@[inline] def onHeap {α : Type} (operation : HeapM α) : Action α := fun m =>
  match operation m.heap with
  | .ok a heap => .ok a { m with heap }
  | .error f heap => .error (.fault f) { m with heap }

/-! ### Roots -/

/-- Everything a machine keeps alive: its stack, its active calls, its open cells and its
globals with their names. -/
def roots (stack : Array Value) (frames : List Frame) (openCells : OpenCells)
    (globals : Globals) : List Handle :=
  stack.toList.filterMap Value.handle? ++ frames.map Frame.closure
    ++ openCells.entries.map (·.2)
    ++ globals.toList.flatMap fun (name, value) => name :: value.handle?.toList

/-- Runs an operation of the heap that may collect. -/
@[inline] def withRoots {α : Type} (operation : List Handle → HeapM α) : Action α := fun m =>
  match operation (roots m.stack m.frames m.openCells m.globals) m.heap with
  | .ok a heap => .ok a { m with heap }
  | .error f heap => .error (.fault f) { m with heap }

/-- Allocates an object. -/
def allocate (object : Object) : Action Handle := withRoots (Heap.allocate object)

/-- Allocates a closure of a function. -/
def allocateClosure (function : Handle) : Action Handle :=
  withRoots (Heap.allocateClosure function)

/-- The interned string with a given text. -/
def intern (text : String) : Action Handle := withRoots (Heap.intern text)

/-- The interned string made of two others. -/
def concat (first second : Handle) : Action Handle := withRoots (Heap.concat first second)

/-- Frees everything that the machine does not keep alive. -/
def collect : Action Unit := withRoots Heap.collect

/-! ### Slots and cells -/

/-- The value in a stack slot. -/
@[inline] def slotValue (slot : Nat) : Action Value := do demand (← get).stack[slot]?

/-- Sets the value in a stack slot. -/
@[inline] def setSlot (slot : Nat) (value : Value) : Action Unit := do
  if slot < (← get).stack.size then
    modify fun m => { m with stack := m.stack.setIfInBounds slot value }
  else stop .outOfRange

/-- Closes a cell with the value its slot has now. -/
def closeCell (slot : Nat) (cell : Handle) : Action Unit := do
  let value ← slotValue slot
  onHeap (Heap.setCell cell (.closed value))

/-- Closes every open cell at or above a slot. -/
def closeFrom (slot : Nat) : Action Unit := do
  let (closing, kept) := (← get).openCells.splitFrom slot
  modify fun m => { m with openCells := kept }
  closing.forM fun (slot, cell) => closeCell slot cell

/-- The open cell of a stack slot, made at its first use. -/
def openCell (slot : Nat) : Action Handle := do
  match (← get).openCells.find? slot with
  | some cell => return cell
  | none =>
    let cell ← allocate (.cell (.opened slot))
    modify fun m => { m with openCells := m.openCells.insert slot cell }
    return cell

/-! ### Runtime errors -/

/-- The line of a trace for an active call: the line of the byte executed last. -/
def traceLine (heap : Heap) (frame : Frame) : Except Fault TraceLine := do
  let f ← heap.function frame.function
  let name ← f.name.mapM heap.string
  match f.chunk.lines[frame.ip - 1]? with
  | some line => return ⟨name, line⟩
  | none => throw .outOfRange

/-- Ends all calls. Closures that live on keep the variables they captured. -/
def reset : Action Unit := do
  closeFrom 0
  modify fun m => { m with stack := #[], frames := [] }

/-- Raises a runtime error: the active calls are recorded and then ended. -/
def raise {α : Type} (cause : Cause) : Action α := do
  let trace ← ask fun m => m.frames.mapM (traceLine m.heap)
  reset
  throw (.raised ⟨cause, trace⟩)

/-! ### The stack -/

/-- Pushes a value, if there is room. -/
@[inline] def push (value : Value) : Action Unit := fun m =>
  if m.stackMax ≤ m.stack.size then raise .stackOverflow m
  else .ok () { m with stack := m.stack.push value }

/-- Pops a value. An empty stack gives `nil`. -/
@[inline] def pop : Action Value := do
  let value := (← get).stack.back?
  modify fun m => { m with stack := m.stack.pop }
  return value.getD .nil

/-- The value that lies under a given count of others. -/
@[inline] def peek (depth : Nat) : Action Value := do
  let stack := (← get).stack
  if depth < stack.size then demand stack[stack.size - 1 - depth]? else stop .outOfRange

/-- Shortens the stack to a size. -/
@[inline] def truncate (size : Nat) : Action Unit :=
  modify fun m => { m with stack := m.stack.shrink size }

end Machine

end Lox
