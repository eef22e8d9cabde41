/-!
# Values

What a variable or a stack slot of a running program holds. A value is small: everything
with contents of its own is an object of the heap and is held by its handle.

## Main definitions

* `Handle`, `Handle.count`, `Value`.
* `Value.isFalsey`, `Value.same` — the two questions a program can ask of every value.
-/

namespace Lox

/-- The number of a place in the heap. A handle takes up 32 bits, so there are `Handle.count`
of them, and the number of a place beyond is cut to 32 bits: see `Heap.handle`. -/
structure Handle where
  /-- The place, counted from zero. -/
  index : Nat
  deriving DecidableEq, Repr, Inhabited

/-- How many handles there are. -/
def Handle.count : Nat := 0x100000000

/-- How handles appear in messages. -/
def Handle.text (h : Handle) : String := "#" ++ toString h.index

/-- A value of the language. -/
inductive Value where
  | nil
  | bool (b : Bool)
  | number (x : Float)
  | object (h : Handle)
  deriving Repr, Inhabited

namespace Value

/-- Only `nil` and `false` count as false. -/
def isFalsey : Value → Bool
  | nil => true
  | bool b => !b
  | _ => false

/-- The equality of the language. Values of different kinds differ; numbers are compared as
IEEE numbers, so a NaN differs from itself and the two zeros agree; objects are equal only to
themselves. -/
def same : Value → Value → Bool
  | nil, nil => true
  | bool a, bool b => a = b
  | number x, number y => x == y
  | object g, object h => g = h
  | _, _ => false

/-- The number, if the value is one. -/
def number? : Value → Option Float
  | number x => some x
  | _ => none

/-- The handle, if the value is an object. -/
def handle? : Value → Option Handle
  | object h => some h
  | _ => none

end Value

end Lox
