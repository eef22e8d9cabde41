import Lox.Heap.Basic

/-!
# Collection

A collection frees every object that cannot be reached from the roots. It first marks:
a marked object is *gray* until its children have been marked too. It then sweeps: unmarked
objects are freed and all marks are cleared. In between, the intern table forgets the strings
that are about to be freed.

Marks may also be set ahead of a collection, which then keeps what they reach.

## Main definitions

* `Heap.mark`, `Heap.trace`, `Heap.sweep` — the phases.
* `Heap.collect` — a full collection.
-/

namespace Lox

namespace Slot

/-- Whether a sweep frees the slot. -/
def isDoomed (slot : Slot) : Bool := slot.object.isSome && !slot.marked

/-- The slot after a sweep. -/
def swept (slot : Slot) : Slot :=
  { slot with object := if slot.isDoomed then none else slot.object, marked := false }

end Slot

namespace Heap

/-! ### Marking -/

/-- Marks an object and queues it. A free slot, and an object already marked, are left as
they are. -/
def mark (h : Handle) : HeapM Unit := fun heap =>
  match heap.slots[h.index]? with
  | none => .error .outOfRange heap
  | some slot =>
    if slot.marked || slot.object.isNone then .ok () heap
    else
      .ok () { heap with
        slots := heap.slots.modify h.index fun slot => { slot with marked := true }
        gray := h :: heap.gray }

/-- Whether an object is marked. -/
def isMarked (heap : Heap) (h : Handle) : Except Fault Bool :=
  match heap.slots[h.index]? with
  | none => .error .outOfRange
  | some slot => .ok slot.marked

/-- Marks the object that a value refers to, if it refers to one. -/
def markValue : Value → HeapM Unit
  | .object h => mark h
  | _ => pure ()

/-- Marks the children of a gray object. -/
def blacken (h : Handle) : HeapM Unit := fun heap =>
  match heap.object h with
  | .error fault => .error fault heap
  | .ok object => object.children.forM markValue heap

/-- Empties the gray list in at most the given number of steps. -/
def traceWithin : Nat → HeapM Unit
  | 0 => pure ()
  | steps + 1 => fun heap =>
    match heap.gray with
    | [] => .ok () heap
    | h :: gray => (do blacken h; traceWithin steps) { heap with gray }

/-- Marks everything that the gray objects reach. Every object is gray at most once between
two collections, so the size of the arena bounds the steps. -/
def trace : HeapM Unit := fun heap =>
  traceWithin (heap.gray.length + heap.slots.size) heap

/-! ### Sweeping -/

/-- Whether a slot is marked. -/
def marksSlot (heap : Heap) (h : Handle) : Bool :=
  match heap.slots[h.index]? with
  | some slot => slot.marked
  | none => false

/-- The strings of a bucket that are marked, if there is one. -/
def markedStrings? (heap : Heap) (bucket : List Handle) : Option (List Handle) :=
  match bucket.filter heap.marksSlot with
  | [] => none
  | kept => some kept

/-- Takes the unmarked strings out of the intern table. -/
def forgetStrings (heap : Heap) : Heap :=
  { heap with strings := heap.strings.filterMap fun _ bucket => heap.markedStrings? bucket }

/-- The slots that a sweep frees, lowest first. -/
def doomed (heap : Heap) : List Nat :=
  (List.range heap.slots.size).filter fun i => (heap.slots[i]?.map Slot.isDoomed).getD false

/-- The bytes charged for the objects that a sweep frees. -/
def doomedBytes (heap : Heap) : Nat :=
  heap.slots.foldl (fun total slot => if slot.isDoomed then total + slot.size else total) 0

/-- Frees every unmarked object and clears all marks. The slots go on the free list lowest
first, so that the highest is used first. -/
def sweep (heap : Heap) : Heap :=
  let doomed := heap.doomed
  let bytes := heap.doomedBytes
  { heap with
    slots := heap.slots.map Slot.swept
    free := (doomed.map fun i => (heap.handle i).index).reverse ++ heap.free
    bytes := heap.bytes - bytes
    tally := { heap.tally with
      objectsFreed := heap.tally.objectsFreed + doomed.length
      bytesFreed := heap.tally.bytesFreed + bytes } }

/-- Sets the threshold from what is left after a sweep, and counts the collection. -/
def rearm : HeapM Unit := fun heap =>
  let threshold := heap.bytes * heap.policy.growth
  if maxWord < threshold then .error .overflow heap
  else
    .ok () { heap with
      threshold
      tally := { heap.tally with collections := heap.tally.collections + 1 } }

/-- A full collection. -/
def collect (roots : List Handle) : HeapM Unit := do
  roots.forM mark
  trace
  modify fun heap => heap.forgetStrings.sweep
  rearm

end Heap

end Lox
