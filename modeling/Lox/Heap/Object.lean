import Lox.Bytecode.Chunk

/-!
# Heap objects

The things that handles refer to. Objects refer to one another by handle only, so the heap
is a graph and `Object.children` lists the edges that leave an object.

## Main definitions

* `Function`, `Native`, `Closure`, `Cell`, `Object`.
* `Object.children` — the values an object refers to.
* `Object.size` — the bytes charged for an object.
-/

namespace Lox

/-- A compiled function. -/
structure Function where
  /-- How many parameters it has. -/
  arity : Nat := 0
  /-- How many variables it captures. -/
  upvalueCount : Nat := 0
  /-- The string that names it; the script has no name. -/
  name : Option Handle := none
  /-- Its code. -/
  chunk : Chunk := {}
  deriving Inhabited

/-- A function of the host. It is given a reading of the host's clock, in seconds, and the
arguments of the call. -/
abbrev HostFunction := Float → Array Value → Value

/-- A function of the host under a name. -/
structure Native where
  /-- The name it was registered under. -/
  name : String
  /-- What it computes. -/
  run : HostFunction

/-- A function together with the cells of the variables it captured. -/
structure Closure where
  /-- The function. -/
  function : Handle
  /-- The cells captured so far, in the order in which the function counts them. -/
  cells : Array Handle := #[]
  /-- For how many cells there is room. -/
  room : Nat := 0

/-- Adds a captured cell. A full closure at least doubles its room, and has room for four
cells or more from then on. -/
def Closure.capture (c : Closure) (cell : Handle) : Closure :=
  { c with
    cells := c.cells.push cell
    room := if c.cells.size < c.room then c.room else max (2 * c.room) 4 }

/-- A captured variable. -/
inductive Cell where
  /-- The variable still lives in a stack slot. -/
  | opened (slot : Nat)
  /-- The variable has left the stack, and the cell owns its value. -/
  | closed (value : Value)

/-- What a handle can refer to. -/
inductive Object where
  | string (text : String)
  | function (f : Function)
  | native (n : Native)
  | closure (c : Closure)
  | cell (c : Cell)

/-- The kinds of objects. -/
inductive ObjectKind where
  | string | function | native | closure | cell
  deriving DecidableEq, Repr

/-- How kinds appear in messages. -/
def ObjectKind.text : ObjectKind → String
  | .string => "string"
  | .function => "function"
  | .native => "native"
  | .closure => "closure"
  | .cell => "upvalue"

namespace Object

/-- The kind of an object. -/
def kind : Object → ObjectKind
  | string _ => .string
  | function _ => .function
  | native _ => .native
  | closure _ => .closure
  | cell _ => .cell

/-- The values that an object refers to. The value of an open cell lives on the stack, which
keeps it alive by itself. -/
def children : Object → List Value
  | string _ => []
  | native _ => []
  | function f => (f.name.map Value.object).toList ++ f.chunk.constants.toList
  | closure c => .object c.function :: c.cells.toList.map Value.object
  | cell (.opened _) => []
  | cell (.closed value) => [value]

/-- The bytes charged for every object, whatever it holds. -/
def header : Nat := 96

/-- The bytes charged for an object. -/
def size : Object → Nat
  | string text => header + text.utf8ByteSize
  | function f => header + f.chunk.size
  | native n => header + n.name.utf8ByteSize
  | closure c => header + 4 * c.room
  | cell _ => header

end Object

end Lox
