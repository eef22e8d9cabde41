import Lox.Heap.Collect

/-!
# Allocation

A new object is charged first; if the byte total is then past the threshold, or under stress,
a collection runs with the roots at hand; only then is the object put into its slot, so that
this collection cannot free it.

## Main definitions

* `Heap.allocate` — allocates any object.
* `Heap.intern`, `Heap.concat` — strings.
-/

namespace Lox.Heap

/-- Charges the bytes of an object. -/
def charge (heap : Heap) (size : Nat) : Heap := { heap with bytes := heap.bytes + size }

/-- Whether a collection is due. -/
def isDue (heap : Heap) : Bool := heap.policy.stress || heap.threshold < heap.bytes

/-- Puts an object into the slot freed last, or into a new one. -/
def place (object : Object) (size : Nat) : HeapM Handle := fun heap =>
  let slot : Slot := { object := some object, size }
  match heap.free with
  | index :: free =>
    .ok ⟨index⟩ { heap with slots := heap.slots.set! index slot, free }
  | [] =>
    let h := heap.handle heap.slots.size
    .ok h { heap with slots := heap.slots.push slot }

/-- Allocates an object. `roots` are what a collection must keep. -/
@[inline] def allocate (object : Object) (roots : List Handle) : HeapM Handle := do
  let size := object.size
  modify (·.charge size)
  if (← get).isDue then collect roots
  place object size

/-- Adds a string to the intern table. -/
def enlist (hash : UInt64) (h : Handle) (heap : Heap) : Heap :=
  { heap with strings := heap.strings.alter hash fun bucket => some (bucket.getD [] ++ [h]) }

/-- The interned string with the given text, allocated at its first use. -/
@[inline] def intern (text : String) (roots : List Handle) : HeapM Handle := do
  let hash := fingerprint text
  match (← get).findInterned? text hash with
  | some h => return h
  | none =>
    let h ← allocate (.string text) roots
    modify (enlist hash h)
    return h

/-- The interned string made of two others, which `roots` must keep alive. -/
@[inline] def concat (first second : Handle) (roots : List Handle) : HeapM Handle :=
  fun heap =>
    match heap.string first with
    | .error fault => .error fault heap
    | .ok left =>
      match heap.string second with
      | .error fault => .error fault heap
      | .ok right => intern (left ++ right) roots heap

/-- Allocates a closure that has captured nothing yet. Room for all that its function captures
is set aside at once, four bytes for each cell. -/
@[inline] def allocateClosure (function : Handle) (roots : List Handle) : HeapM Handle :=
  fun heap =>
    match heap.function function with
    | .error fault => .error fault heap
    | .ok f =>
      if maxBlock < 4 * f.upvalueCount then .error .overflow heap
      else allocate (.closure { function, room := f.upvalueCount }) roots heap

end Lox.Heap
