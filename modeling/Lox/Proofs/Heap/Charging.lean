import Lox.Heap.Allocate
import Lox.Proofs.Sequencing

/-!
# What allocations are charged

An allocation charges the bytes of its object, and a collection gives bytes back. So the bytes in
use grow by no more than the sizes of the objects, and a collection that overflows had no more than
that to count.

## Main definitions

* `Heap.Charges` — operations that charge no more than a number of bytes.

## Main results

* `allocate_charges`, `intern_charges` — allocations.
-/

namespace Lox.Heap

variable {α β : Type} {size more : Nat}

/-- An operation charges no more than a number of bytes, and overflows only if what was there and
what it charges are too much. -/
structure Charges (size : Nat) (x : HeapM α) : Prop where
  ok : ∀ heap a heap', x heap = .ok a heap' →
    heap'.bytes ≤ heap.bytes + size ∧ heap'.policy = heap.policy
  overflow : ∀ heap heap', x heap = .error .overflow heap' →
    maxWord < (heap.bytes + size) * heap.policy.growth

namespace Charges

/-- What an operation does may depend on the heap, and it may start by changing what does not
count. -/
theorem start {x : HeapM α} (run : ∀ heap, ∃ (y : HeapM α) (mid : Heap), x heap = y mid ∧
    Charges size y ∧ mid.bytes = heap.bytes ∧ mid.policy = heap.policy) : Charges size x := by
  constructor
  · intro heap a heap' hrun
    obtain ⟨y, mid, heq, charges, hbytes, hpolicy⟩ := run heap
    rw [← hbytes, ← hpolicy]
    exact charges.ok mid a heap' (heq ▸ hrun)
  · intro heap heap' hrun
    obtain ⟨y, mid, heq, charges, hbytes, hpolicy⟩ := run heap
    rw [← hbytes, ← hpolicy]
    exact charges.overflow mid heap' (heq ▸ hrun)

theorem pure (a : α) : Charges 0 (Pure.pure a : HeapM α) := by
  refine ⟨?_, fun _ _ run => by cases run⟩
  rintro heap _ _ ⟨⟩
  exact ⟨Nat.le_refl _, rfl⟩

/-- A fault of another kind. -/
theorem fault {x : HeapM α} {f : Fault} (run : ∀ heap, x heap = .error f heap)
    (other : f ≠ .overflow) : Charges size x := by
  refine ⟨fun heap a heap' hrun => ?_, fun heap heap' hrun => ?_⟩ <;> rw [run heap] at hrun <;>
    cases hrun
  exact absurd rfl other

/-- A change of the heap. -/
theorem change {f : Heap → Heap} (bytes : ∀ heap, (f heap).bytes ≤ heap.bytes + size)
    (policy : ∀ heap, (f heap).policy = heap.policy) : Charges size (modify f : HeapM Unit) := by
  refine ⟨?_, fun _ _ run => by cases run⟩
  rintro heap _ _ ⟨⟩
  exact ⟨bytes heap, policy heap⟩

theorem bind {x : HeapM α} {f : α → HeapM β} (first : Charges size x)
    (rest : ∀ a, Charges more (f a)) : Charges (size + more) (x >>= f) := by
  constructor
  · intro heap b heap' run
    obtain ⟨a, mid, hfirst, hrest⟩ := bind_eq_ok_iff.mp run
    obtain ⟨hbytes, hpolicy⟩ := first.ok heap a mid hfirst
    obtain ⟨hbytes', hpolicy'⟩ := (rest a).ok mid b heap' hrest
    exact ⟨by omega, hpolicy'.trans hpolicy⟩
  · intro heap heap' run
    cases hfirst : x heap with
    | ok a mid =>
        rw [bind_of_ok hfirst] at run
        obtain ⟨hbytes, hpolicy⟩ := first.ok heap a mid hfirst
        have hover := (rest a).overflow mid heap' run
        rw [hpolicy] at hover
        exact Nat.lt_of_lt_of_le hover (Nat.mul_le_mul_right _ (by omega))
    | error f mid =>
        rw [bind_of_error hfirst] at run
        cases run
        exact Nat.lt_of_lt_of_le (first.overflow heap heap' hfirst)
          (Nat.mul_le_mul_right _ (by omega))

theorem forM {γ : Type} {f : γ → HeapM PUnit} (each : ∀ a, Charges 0 (f a)) (l : List γ) :
    Charges 0 (l.forM f) := by
  induction l with
  | nil => exact .pure _
  | cons a l ih => exact .bind (each a) fun _ => ih

end Charges

/-! ### Collections -/

theorem mark_charges (h : Handle) : Charges 0 (mark h) := by
  refine ⟨fun heap a heap' run => ?_, fun heap heap' run => ?_⟩ <;> unfold mark at run <;>
    split at run <;> try cases run
  · split at run <;> cases run <;> exact ⟨Nat.le_refl _, rfl⟩
  · split at run <;> cases run

theorem markValue_charges (v : Value) : Charges 0 (markValue v) := by
  cases v with
  | object h => exact mark_charges h
  | nil | bool | number => exact .pure ()

/-- Looking an object up never overflows. -/
theorem object_ne_overflow (heap : Heap) (h : Handle) : heap.object h ≠ .error .overflow := by
  unfold object
  split
  · exact nofun
  · split <;> exact nofun

theorem blacken_charges (h : Handle) : Charges 0 (blacken h) := by
  refine .start fun heap => ?_
  unfold blacken
  split
  · rename_i f hobject
    have hother : f ≠ .overflow := fun heq => object_ne_overflow heap h (heq ▸ hobject)
    exact ⟨fun heap => .error f heap, heap, rfl, .fault (fun _ => rfl) hother, rfl, rfl⟩
  · exact ⟨_, heap, rfl, .forM markValue_charges _, rfl, rfl⟩

theorem traceWithin_charges (steps : Nat) : Charges 0 (traceWithin steps) := by
  induction steps with
  | zero => exact .pure ()
  | succ steps ih =>
      refine .start fun heap => ?_
      unfold traceWithin
      split
      · exact ⟨Pure.pure (), heap, rfl, .pure (), rfl, rfl⟩
      · exact ⟨_, _, rfl, .bind (blacken_charges _) fun _ => ih, rfl, rfl⟩

theorem rearm_charges : Charges 0 rearm := by
  refine ⟨fun heap a heap' run => ?_, fun heap heap' run => ?_⟩ <;> dsimp only [rearm] at run <;>
    split at run <;> cases run
  · exact ⟨Nat.le_refl _, rfl⟩
  · rename_i hover
    exact hover

/-- A collection gives bytes back, and overflows only if what was there is too much. -/
theorem collect_charges (roots : List Handle) : Charges 0 (collect roots) := by
  have htrace : Charges 0 trace := .start fun heap =>
    ⟨traceWithin (heap.gray.length + heap.slots.size), heap, rfl, traceWithin_charges _, rfl, rfl⟩
  have hsweep : Charges 0 (modify fun heap => heap.forgetStrings.sweep) :=
    .change (fun heap => Nat.sub_le heap.bytes _) fun _ => rfl
  exact .bind (.forM mark_charges roots) fun _ => .bind htrace fun _ => .bind hsweep fun _ =>
    rearm_charges

/-! ### Allocations -/

theorem place_charges (o : Object) (size : Nat) : Charges 0 (place o size) := by
  refine ⟨fun heap a heap' run => ?_, fun heap heap' run => ?_⟩ <;> unfold place at run <;>
    split at run <;> cases run <;> exact ⟨Nat.le_refl _, rfl⟩

/-- An allocation charges the size of its object. -/
theorem allocate_charges (o : Object) (roots : List Handle) :
    Charges o.size (allocate o roots) := by
  have hcharge : Charges o.size (modify (·.charge o.size) : HeapM Unit) :=
    .change (fun _ => Nat.le_refl _) fun _ => rfl
  have hplace : Charges 0 (do
      if (← get).isDue then collect roots
      place o o.size) := by
    refine .start fun heap => ?_
    rw [bind_of_ok (get_apply heap)]
    split
    · exact ⟨_, heap, rfl, .bind (collect_charges roots) fun _ => place_charges o _, rfl, rfl⟩
    · exact ⟨_, heap, rfl, place_charges o _, rfl, rfl⟩
  exact .bind hcharge fun _ => hplace

/-- Interning charges no more than the size of a new string. -/
theorem intern_charges (text : String) (roots : List Handle) :
    Charges (Object.string text).size (intern text roots) := by
  refine .start fun heap => ?_
  unfold intern
  rw [bind_of_ok (get_apply heap)]
  cases hfound : heap.findInterned? text (fingerprint text) with
  | some h =>
      refine ⟨Pure.pure h, heap, rfl, ⟨?_, fun _ _ run => by cases run⟩, rfl, rfl⟩
      rintro heap _ _ ⟨⟩
      exact ⟨Nat.le_add_right _ _, rfl⟩
  | none =>
      have henlist : ∀ h, Charges 0 (modify (enlist (fingerprint text) h) : HeapM Unit) :=
        fun _ => .change (fun _ => Nat.le_refl _) fun _ => rfl
      have hnew : Charges ((Object.string text).size + 0) (do
          let h ← allocate (.string text) roots
          modify (enlist (fingerprint text) h)
          return h) :=
        .bind (allocate_charges _ roots) fun h => .bind (henlist h) fun _ => .pure h
      exact ⟨_, heap, rfl, hnew, rfl, rfl⟩

end Lox.Heap
