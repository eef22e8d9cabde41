import Lox.Heap.Object

/-!
# Faults

A fault is a broken promise inside the machine, not a mistake of the program it runs: a
handle that refers to nothing, an object of another kind than was promised, an index outside
its range. The machine stops at a fault for good. Mistakes of programs are diagnostics and
runtime errors instead, after which the machine goes on.
-/

namespace Lox

/-- The largest number that a machine word can hold. -/
def maxWord : Nat := 0xffffffffffffffff

/-- The most bytes that can be set aside at once. -/
def maxBlock : Nat := maxWord / 2

/-- Why the machine stops for good. -/
inductive Fault where
  /-- The object behind a handle has been freed. -/
  | dangling (h : Handle)
  /-- The object behind a handle is of another kind. -/
  | wrongKind (wanted found : ObjectKind)
  /-- An index, a slot, an offset or a slice lies outside its range. -/
  | outOfRange
  /-- A byte count exceeds what a machine word or a block of memory can hold. -/
  | overflow
  /-- The parser was given fewer steps than its input has tokens. -/
  | exhausted
  deriving DecidableEq, Repr

/-- The words for the faults that have any. -/
def Fault.message? : Fault → Option String
  | .dangling h => some ("dangling object handle " ++ h.text)
  | .wrongKind wanted found => some ("expected " ++ wanted.text ++ ", found " ++ found.text)
  | _ => none

end Lox
