import Std.Data.TreeMap
import Lox.Fault
import Lox.Number.Text
import Lox.Text.Fingerprint

/-!
# The heap

Objects live in the numbered slots of an arena. A slot that is freed goes on a free list and
is used again, most recently freed first. Strings are interned: a table finds the string with
a given text by its fingerprint, and it holds strings weakly, that is, it keeps none alive.

This module holds the heap and what can be asked of it; allocating and collecting are in
`Lox.Heap.Collect` and `Lox.Heap.Allocate`.

## Main definitions

* `Policy`, `Tally`, `Slot`, `Heap`.
* `Heap.handle` — the handle of a slot, cut to its width.
* `Heap.object` and the typed accessors, which fault on a handle they cannot serve.
* `Heap.display` — the text of a value as a program prints it.
-/

namespace Lox

/-- When to collect. -/
structure Policy where
  /-- The byte total beyond which the first collection runs. -/
  threshold : Nat := 1048576
  /-- After a collection the threshold is the live byte total times this factor. -/
  growth : Nat := 2
  /-- Whether to collect at every allocation. -/
  stress : Bool := false
  deriving Repr

/-- A growth factor below one counts as one. -/
def Policy.withGrowth (p : Policy) (factor : Nat) : Policy :=
  { p with growth := max factor 1 }

/-- What all collections so far have done. -/
structure Tally where
  /-- How many collections have run. -/
  collections : Nat := 0
  /-- How many objects they have freed. -/
  objectsFreed : Nat := 0
  /-- How many bytes those objects were charged. -/
  bytesFreed : Nat := 0
  deriving Repr

/-- One place of the arena. -/
structure Slot where
  /-- The object, unless the slot is free. -/
  object : Option Object
  /-- Whether the object has been found reachable since the last collection. -/
  marked : Bool := false
  /-- The bytes charged for the object when it was allocated. -/
  size : Nat

instance : Inhabited Slot := ⟨{ object := none, size := 0 }⟩

/-- The table of interned strings: the strings with a given fingerprint, oldest first. -/
abbrev InternTable := Std.TreeMap UInt64 (List Handle)

/-- The object heap. -/
structure Heap where
  /-- The arena. A handle is an index into it. -/
  slots : Array Slot := #[]
  /-- The free slots, the one to be used next at the head. -/
  free : List Nat := []
  /-- The interned strings. -/
  strings : InternTable := ∅
  /-- The bytes charged for the objects in the arena. -/
  bytes : Nat := 0
  /-- The byte total beyond which the next collection runs. -/
  threshold : Nat
  /-- The marked objects whose children have not been looked at. -/
  gray : List Handle := []
  /-- When to collect. -/
  policy : Policy
  /-- What the collections have done. -/
  tally : Tally := {}
  /-- How many handles there are. Zero stands for no bound: such is the heap of a host whose
  memory ends before its handles do. -/
  handles : Nat := 0

/-- Heap operations that may fault. -/
abbrev HeapM := EStateM Fault Heap

namespace Heap

/-- An empty heap. -/
def empty (policy : Policy) (handles : Nat := 0) : Heap :=
  { threshold := policy.threshold, policy, handles }

/-- The handle of a slot. The number of the slot is cut to what a handle can hold. -/
@[inline] def handle (heap : Heap) (index : Nat) : Handle := ⟨index % heap.handles⟩

/-! ### Objects -/

/-- The object behind a handle, if there is one. -/
@[inline] def object? (heap : Heap) (h : Handle) : Option Object :=
  match heap.slots[h.index]? with
  | some slot => slot.object
  | none => none

/-- Whether a handle refers to an object. -/
def contains (heap : Heap) (h : Handle) : Bool := (heap.object? h).isSome

/-- The object behind a handle. -/
@[inline] def object (heap : Heap) (h : Handle) : Except Fault Object :=
  match heap.slots[h.index]? with
  | none => .error .outOfRange
  | some slot =>
    match slot.object with
    | none => .error (.dangling h)
    | some found => .ok found

/-- The kind of the object behind a handle. -/
@[inline] def kind (heap : Heap) (h : Handle) : Except Fault ObjectKind :=
  return (← heap.object h).kind

/-- The text of a string. -/
@[inline] def string (heap : Heap) (h : Handle) : Except Fault String := do
  match ← heap.object h with
  | .string text => return text
  | other => throw (.wrongKind .string other.kind)

/-- A function. -/
@[inline] def function (heap : Heap) (h : Handle) : Except Fault Function := do
  match ← heap.object h with
  | .function f => return f
  | other => throw (.wrongKind .function other.kind)

/-- A host function. -/
def native (heap : Heap) (h : Handle) : Except Fault Native := do
  match ← heap.object h with
  | .native n => return n
  | other => throw (.wrongKind .native other.kind)

/-- A closure. -/
@[inline] def closure (heap : Heap) (h : Handle) : Except Fault Closure := do
  match ← heap.object h with
  | .closure c => return c
  | other => throw (.wrongKind .closure other.kind)

/-- The cell of a captured variable. -/
@[inline] def cell (heap : Heap) (h : Handle) : Except Fault Cell := do
  match ← heap.object h with
  | .cell c => return c
  | other => throw (.wrongKind .cell other.kind)

/-- Whether a value is a string. -/
@[inline] def isString (heap : Heap) : Value → Except Fault Bool
  | .object h => return (← heap.kind h) = .string
  | _ => return false

/-! ### Changing objects -/

/-- Puts another object into an occupied slot. The bytes charged for it stay as they are. -/
def replace (heap : Heap) (h : Handle) (object : Object) : Heap :=
  { heap with slots := heap.slots.modify h.index fun slot => { slot with object := some object } }

/-- Sets the state of a cell. -/
def setCell (h : Handle) (state : Cell) : HeapM Unit := fun heap =>
  match heap.cell h with
  | .error fault => .error fault heap
  | .ok _ => .ok () (heap.replace h (.cell state))

/-- Adds a cell to those that a closure has captured. -/
def capture (h cell : Handle) : HeapM Unit := fun heap =>
  match heap.closure h with
  | .error fault => .error fault heap
  | .ok c => .ok () (heap.replace h (.closure (c.capture cell)))

/-! ### Interned strings -/

/-- Whether a handle refers to the string with the given text. -/
def holdsText (heap : Heap) (text : String) (h : Handle) : Bool :=
  match heap.object? h with
  | some (.string other) => other = text
  | _ => false

/-- The interned string with the given fingerprint and text. -/
def findInterned? (heap : Heap) (text : String) (hash : UInt64) : Option Handle :=
  match heap.strings[hash]? with
  | some bucket => bucket.find? (heap.holdsText text)
  | none => none

/-! ### Counting -/

/-- How many objects there are. -/
def objectCount (heap : Heap) : Nat := heap.slots.countP (·.object.isSome)

/-- The interned strings, by increasing fingerprint. -/
def interned (heap : Heap) : List Handle := heap.strings.toList.flatMap (·.2)

/-- How many strings are interned. -/
def internedCount (heap : Heap) : Nat := heap.interned.length

/-! ### Display -/

/-- The text of a function. -/
def displayFunction (heap : Heap) (f : Function) : Except Fault String :=
  match f.name with
  | none => return "<script>"
  | some name => return "<fn " ++ (← heap.string name) ++ ">"

/-- The text of an object. A closure looks like its function. -/
def displayObject (heap : Heap) : Object → Except Fault String
  | .string text => return text
  | .function f => heap.displayFunction f
  | .native _ => return "<native fn>"
  | .closure c => do heap.displayFunction (← heap.function c.function)
  | .cell _ => return "upvalue"

/-- The text of a value, as a program prints it. -/
def display (heap : Heap) : Value → Except Fault String
  | .nil => return "nil"
  | .bool b => return if b then "true" else "false"
  | .number x => return Number.text x
  | .object h => do heap.displayObject (← heap.object h)

end Heap

end Lox
