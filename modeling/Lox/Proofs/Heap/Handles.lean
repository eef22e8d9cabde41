import Lox.Proofs.Heap.Collection

/-!
# Handles of a bounded width

A handle holds 32 bits, and the number of a slot is cut to them. As long as an arena has no more
slots than there are handles nothing is lost: every operation does then what it would do on
handles without a bound. This module proves it of each operation of a heap, so that what holds of
every history on unbounded handles holds of a history on bounded ones until the slots outnumber
them.

## Main definitions

* `Heap.unlimited` — a heap without its bound on handles.
* `Suits`, `Still` — operations that the bound does not matter to while there are handles enough.

## Main results

* `collect_still` — collections.
* `allocate_suits`, `intern_suits`, `concat_suits`, `allocateClosure_suits` — allocations.
-/

namespace Lox.Heap

variable {α β : Type} {heap heap' : Heap} {h g : Handle} {roots : List Handle} {o : Object}

/-- The same heap without a bound on handles. -/
def unlimited (heap : Heap) : Heap := { heap with handles := 0 }

/-- The heap that an operation leaves, whether or not it fails. -/
def left : EStateM.Result Fault Heap α → Heap
  | .ok _ heap => heap
  | .error _ heap => heap

/-- An operation **suits** a heap: it takes no slot away and leaves the bound on handles as it is,
and if there is a handle for every slot afterwards, it does the same without the bound. -/
structure Suits (x : HeapM α) (heap : Heap) : Prop where
  handles : (left (x heap)).handles = heap.handles
  grows : heap.slots.size ≤ (left (x heap)).slots.size
  unlimited : (left (x heap)).slots.size ≤ heap.handles →
    x heap.unlimited = onState Heap.unlimited (x heap)

/-- An operation that suits is **still** if it makes no slot either. -/
structure Still (x : HeapM α) (heap : Heap) : Prop extends Suits x heap where
  size : (left (x heap)).slots.size = heap.slots.size

/-! ### Sequences -/

/-- A sequence suits a heap when its parts do. -/
theorem Suits.bind {x : HeapM α} {f : α → HeapM β} (first : Suits x heap)
    (rest : ∀ a mid, x heap = .ok a mid → Suits (f a) mid) : Suits (x >>= f) heap := by
  obtain ⟨hhandles, hgrows, hunlimited⟩ := first
  cases hx : x heap with
  | ok a mid =>
      rw [hx] at hhandles hgrows hunlimited
      obtain ⟨hhandles', hgrows', hunlimited'⟩ := rest a mid hx
      refine ⟨?_, ?_, fun room => ?_⟩ <;> rw [bind_of_ok hx] at *
      · exact hhandles'.trans hhandles
      · exact hgrows.trans hgrows'
      · rw [bind_of_ok (hunlimited (hgrows'.trans room))]
        exact hunlimited' (room.trans_eq hhandles.symm)
  | error fault mid =>
      rw [hx] at hhandles hgrows hunlimited
      refine ⟨?_, ?_, fun room => ?_⟩ <;> rw [bind_of_error hx] at *
      · exact hhandles
      · exact hgrows
      · exact bind_of_error (hunlimited room)

/-- A sequence is still when its parts are. -/
theorem Still.bind {x : HeapM α} {f : α → HeapM β} (first : Still x heap)
    (rest : ∀ a mid, x heap = .ok a mid → Still (f a) mid) : Still (x >>= f) heap := by
  refine { first.toSuits.bind fun a mid hx => (rest a mid hx).toSuits with size := ?_ }
  have hsize := first.size
  cases hx : x heap with
  | ok a mid =>
      rw [hx] at hsize
      rw [bind_of_ok hx]
      exact (rest a mid hx).size.trans hsize
  | error fault mid =>
      rw [hx] at hsize
      rwa [bind_of_error hx]

/-- What an answer says of an operation that suits. -/
theorem Suits.of_ok {x : HeapM α} {a : α} (suits : Suits x heap) (run : x heap = .ok a heap') :
    heap'.handles = heap.handles ∧ heap.slots.size ≤ heap'.slots.size ∧
      (heap'.slots.size ≤ heap.handles → x heap.unlimited = .ok a heap'.unlimited) := by
  obtain ⟨hhandles, hgrows, hunlimited⟩ := suits
  rw [run] at hhandles hgrows hunlimited
  exact ⟨hhandles, hgrows, hunlimited⟩

/-- An answer without a bound comes from one with it. -/
theorem Still.ok_of_unlimited {x : HeapM α} {a : α} (still : Still x heap)
    (room : heap.slots.size ≤ heap.handles) (run : x heap.unlimited = .ok a heap') :
    ∃ mid, x heap = .ok a mid ∧ heap' = mid.unlimited := by
  have hsame := (still.unlimited (still.size.trans_le room)).symm.trans run
  cases hx : x heap with
  | ok b mid =>
      rw [hx] at hsame
      cases hsame
      exact ⟨mid, rfl, rfl⟩
  | error fault mid =>
      rw [hx] at hsame
      cases hsame

theorem Still.pure (a : α) : Still (Pure.pure a) heap := ⟨⟨rfl, Nat.le_refl _, fun _ => rfl⟩, rfl⟩

/-- An operation that goes on as another one, from a heap that has as many slots. -/
theorem Suits.of_eq {x y : HeapM α} {t : Heap} (run : x heap = y t)
    (run' : x heap.unlimited = y t.unlimited) (size : t.slots.size = heap.slots.size)
    (handles : t.handles = heap.handles) (suits : Suits y t) : Suits x heap := by
  refine ⟨?_, ?_, fun room => ?_⟩ <;> rw [run] at *
  · exact suits.handles.trans handles
  · exact size.symm.trans_le suits.grows
  · exact run'.trans (suits.unlimited (room.trans_eq handles.symm))

/-- An operation that goes on as a still one. -/
theorem Still.of_eq {x y : HeapM α} {t : Heap} (run : x heap = y t)
    (run' : x heap.unlimited = y t.unlimited) (size : t.slots.size = heap.slots.size)
    (handles : t.handles = heap.handles) (still : Still y t) : Still x heap := by
  refine { Suits.of_eq run run' size handles still.toSuits with size := ?_ }
  rw [run]
  exact still.size.trans size

/-- A fault. -/
theorem Still.fault (f : Fault) : Still (α := α) (fun heap => .error f heap) heap :=
  ⟨⟨rfl, Nat.le_refl _, fun _ => rfl⟩, rfl⟩

/-- A change of a heap in which the bound on handles plays no part. -/
theorem Still.change {f : Heap → Heap} (handles : (f heap).handles = heap.handles)
    (size : (f heap).slots.size = heap.slots.size)
    (same : heap.slots.size ≤ heap.handles → f heap.unlimited = (f heap).unlimited) :
    Still (modify f) heap :=
  ⟨⟨handles, Nat.le_of_eq size.symm, fun room =>
    congrArg (EStateM.Result.ok ()) (same (size.symm.trans_le room))⟩, size⟩

theorem Still.forM {γ : Type} {f : γ → HeapM PUnit} (each : ∀ a heap, Still (f a) heap)
    (l : List γ) (heap : Heap) : Still (l.forM f) heap := by
  induction l generalizing heap with
  | nil => exact .pure _
  | cons a l ih => exact .bind (each a heap) fun _ mid _ => ih mid

/-! ### Collections -/

theorem mark_still (h : Handle) (heap : Heap) : Still (mark h) heap := by
  have hunlimited : mark h heap.unlimited = onState unlimited (mark h heap) := by
    unfold mark
    rw [show heap.unlimited.slots = heap.slots from rfl]
    cases heap.slots[h.index]? with
    | none => rfl
    | some slot =>
        dsimp only
        split <;> rfl
  have hleft : (left (mark h heap)).handles = heap.handles ∧
      (left (mark h heap)).slots.size = heap.slots.size := by
    unfold mark
    split
    · exact ⟨rfl, rfl⟩
    · split
      · exact ⟨rfl, rfl⟩
      · exact ⟨rfl, Array.size_modify⟩
  exact ⟨⟨hleft.1, Nat.le_of_eq hleft.2.symm, fun _ => hunlimited⟩, hleft.2⟩

theorem markValue_still (v : Value) (heap : Heap) : Still (markValue v) heap := by
  cases v with
  | object h => exact mark_still h heap
  | nil | bool | number => exact .pure ()

theorem blacken_still (h : Handle) (heap : Heap) : Still (blacken h) heap := by
  have hobject : heap.unlimited.object h = heap.object h := rfl
  cases ho : heap.object h with
  | error f =>
      exact .of_eq (by simp only [blacken, ho]) (by simp only [blacken, hobject, ho]) rfl rfl
        (.fault f)
  | ok o =>
      exact .of_eq (by simp only [blacken, ho]) (by simp only [blacken, hobject, ho]) rfl rfl
        (.forM markValue_still o.children heap)

theorem traceWithin_still (steps : Nat) (heap : Heap) : Still (traceWithin steps) heap := by
  induction steps generalizing heap with
  | zero => exact .pure ()
  | succ steps ih =>
      have hgray : heap.unlimited.gray = heap.gray := rfl
      cases hg : heap.gray with
      | nil =>
          exact .of_eq (y := Pure.pure ()) (by simp only [traceWithin, hg]; rfl)
            (by simp only [traceWithin, hgray, hg]; rfl) rfl rfl (.pure ())
      | cons h gray =>
          exact .of_eq (t := { heap with gray }) (by simp only [traceWithin, hg])
            (by simp only [traceWithin, hgray, hg]; rfl) rfl rfl
            (.bind (blacken_still h _) fun _ mid _ => ih mid)

theorem trace_still (heap : Heap) : Still trace heap :=
  .of_eq (y := traceWithin (heap.gray.length + heap.slots.size)) rfl rfl rfl rfl
    (traceWithin_still _ heap)

/-- A sweep frees slots that have handles of their own. -/
theorem sweep_unlimited (heap : Heap) (room : heap.slots.size ≤ heap.handles) :
    heap.unlimited.sweep = heap.sweep.unlimited := by
  have hindex : ∀ i ∈ heap.doomed, (heap.unlimited.handle i).index = (heap.handle i).index := by
    intro i hi
    have hlt : i < heap.slots.size := (mem_doomed.mp hi).1.inRange
    rw [handle_of_wide rfl]
    exact (Nat.mod_eq_of_lt (hlt.trans_le room)).symm
  exact congrArg (fun free => { heap.sweep.unlimited with free := free.reverse ++ heap.free })
    (List.map_congr_left hindex)

theorem rearm_still (heap : Heap) : Still rearm heap := by
  by_cases hover : maxWord < heap.bytes * heap.policy.growth
  · exact .of_eq (y := fun heap => .error .overflow heap) (by simp [rearm, hover])
      (by simp [rearm, unlimited, hover]) rfl rfl (.fault _)
  · exact .of_eq (y := modify fun heap => { heap with
        threshold := heap.bytes * heap.policy.growth
        tally := { heap.tally with collections := heap.tally.collections + 1 } })
      (by simp [rearm, hover]) (by simp [rearm, unlimited, hover]) rfl rfl
      (.change rfl rfl fun _ => rfl)

/-- A collection makes no handle that it does not find. -/
theorem collect_still (roots : List Handle) (heap : Heap) : Still (collect roots) heap :=
  .bind (.forM mark_still roots heap) fun _ rooted _ =>
    .bind (trace_still rooted) fun _ traced _ =>
      .bind (.change rfl (by simp [sweep, forgetStrings]) fun room =>
        sweep_unlimited traced.forgetStrings room) fun _ swept _ => rearm_still swept

/-! ### Allocations -/

/-- A slot that there is a handle for has a handle of its own. -/
theorem handle_of_lt {i : Nat} (lt : i < heap.handles) : heap.handle i = ⟨i⟩ :=
  congrArg Handle.mk (Nat.mod_eq_of_lt lt)

theorem place_suits (o : Object) (size : Nat) (heap : Heap) : Suits (place o size) heap := by
  have hunlimited : heap.unlimited.free = heap.free := rfl
  cases hfree : heap.free with
  | nil =>
      refine ⟨?_, ?_, fun room => ?_⟩ <;> simp only [place, hunlimited, hfree, left] at *
      · simp
      · rw [Array.size_push] at room
        rw [handle_of_lt room, handle_of_wide rfl]
        rfl
  | cons i free =>
      refine ⟨?_, ?_, fun room => ?_⟩ <;> simp only [place, hunlimited, hfree, left]
      · simp
      · rfl

theorem allocate_suits (o : Object) (roots : List Handle) (heap : Heap) :
    Suits (allocate o roots) heap := by
  have hcharged : Still (modify (·.charge o.size)) heap := .change rfl rfl fun _ => rfl
  refine hcharged.toSuits.bind fun _ mid _ => ?_
  have hdue : mid.unlimited.isDue = mid.isDue := rfl
  cases due : mid.isDue with
  | true =>
      exact .of_eq (y := do collect roots; place o o.size)
        (by rw [bind_of_ok (get_apply mid), due]; rfl)
        (by rw [bind_of_ok (get_apply mid.unlimited), hdue, due]; rfl) rfl rfl
        ((collect_still roots mid).toSuits.bind fun _ left _ => place_suits o o.size left)
  | false =>
      exact .of_eq (y := place o o.size)
        (by rw [bind_of_ok (get_apply mid), due]; rfl)
        (by rw [bind_of_ok (get_apply mid.unlimited), hdue, due]; rfl) rfl rfl
        (place_suits o o.size mid)

theorem intern_suits (text : String) (roots : List Handle) (heap : Heap) :
    Suits (intern text roots) heap := by
  have hfind : heap.unlimited.findInterned? text (fingerprint text) =
      heap.findInterned? text (fingerprint text) := rfl
  cases hfound : heap.findInterned? text (fingerprint text) with
  | some h =>
      exact .of_eq (y := Pure.pure h) (by unfold intern; rw [bind_of_ok (get_apply heap), hfound])
        (by unfold intern; rw [bind_of_ok (get_apply heap.unlimited), hfind, hfound]) rfl rfl
        (Still.pure h).toSuits
  | none =>
      refine .of_eq (y := do
          let h ← allocate (.string text) roots
          modify (enlist (fingerprint text) h)
          return h) (by unfold intern; rw [bind_of_ok (get_apply heap), hfound])
        (by unfold intern; rw [bind_of_ok (get_apply heap.unlimited), hfind, hfound]) rfl rfl ?_
      exact (allocate_suits _ roots heap).bind fun h mid _ =>
        (Still.change (f := enlist _ h) rfl rfl fun _ => rfl).toSuits.bind fun _ _ _ =>
          (Still.pure h).toSuits

theorem concat_suits (first second : Handle) (roots : List Handle) (heap : Heap) :
    Suits (concat first second roots) heap := by
  have hstring : ∀ h, heap.unlimited.string h = heap.string h := fun _ => rfl
  cases hleft : heap.string first with
  | error f =>
      exact .of_eq (by simp only [concat, hleft]) (by simp only [concat, hstring, hleft]) rfl rfl
        (Still.fault f).toSuits
  | ok left =>
      cases hright : heap.string second with
      | error f =>
          exact .of_eq (by simp only [concat, hleft, hright])
            (by simp only [concat, hstring, hleft, hright]) rfl rfl (Still.fault f).toSuits
      | ok right =>
          exact .of_eq (by simp only [concat, hleft, hright])
            (by simp only [concat, hstring, hleft, hright]) rfl rfl
            (intern_suits (left ++ right) roots heap)

theorem allocateClosure_suits (function : Handle) (roots : List Handle) (heap : Heap) :
    Suits (allocateClosure function roots) heap := by
  have hfunction : heap.unlimited.function function = heap.function function := rfl
  cases hf : heap.function function with
  | error f =>
      exact .of_eq (by simp only [allocateClosure, hf])
        (by simp only [allocateClosure, hfunction, hf]) rfl rfl (Still.fault f).toSuits
  | ok f =>
      by_cases hblock : maxBlock < 4 * f.upvalueCount
      · exact .of_eq (by simp only [allocateClosure, hf, hblock, if_true])
          (by simp only [allocateClosure, hfunction, hf, hblock, if_true]) rfl rfl
          (Still.fault .overflow).toSuits
      · exact .of_eq (y := allocate (.closure { function, room := f.upvalueCount }) roots)
          (by simp only [allocateClosure, hf, hblock, if_false])
          (by simp only [allocateClosure, hfunction, hf, hblock, if_false]) rfl rfl
          (allocate_suits _ roots heap)

/-! ### Changes in place -/

/-- An allocation in an arena without free slots, when no collection is due. -/
theorem allocate_of_full (o : Object) (roots : List Handle) (free : heap.free = [])
    (calm : heap.policy.stress = false) (under : heap.bytes + o.size ≤ heap.threshold) :
    allocate o roots heap = .ok (heap.handle heap.slots.size) { heap with
      slots := heap.slots.push { object := some o, size := o.size }
      bytes := heap.bytes + o.size } := by
  have hdue : (heap.charge o.size).isDue = false := by
    simp [isDue, charge, calm, Nat.not_lt.mpr under]
  unfold allocate
  rw [bind_of_ok (modify_apply _ heap), bind_of_ok (get_apply _), hdue]
  simp [place, charge, free, handle]

/-- Allocates a number of cells. -/
def cells : Nat → HeapM Unit
  | 0 => pure ()
  | n + 1 => do
    let _ ← allocate (.cell (.opened 0)) []
    cells n

/-- The cells are put behind what the arena holds. -/
theorem cells_of_full (heap : Heap) (n : Nat) (free : heap.free = [])
    (calm : heap.policy.stress = false) (under : heap.bytes + n * Object.header ≤ heap.threshold) :
    ∃ slots, cells n heap = .ok () { heap with slots, bytes := heap.bytes + n * Object.header } ∧
      slots.size = heap.slots.size + n ∧ ∀ i < heap.slots.size, slots[i]? = heap.slots[i]? := by
  induction n generalizing heap with
  | zero => exact ⟨heap.slots, by simp [cells], rfl, fun _ _ => rfl⟩
  | succ n ih =>
      rw [Nat.succ_mul, Nat.add_comm _ Object.header, ← Nat.add_assoc] at under
      have hfirst := allocate_of_full (.cell (.opened 0)) [] free calm
        (Nat.le_of_add_right_le under)
      obtain ⟨slots, hrest, hsize, hkept⟩ := ih { heap with
        slots := heap.slots.push { object := some (.cell (.opened 0)), size := Object.header }
        bytes := heap.bytes + Object.header } free calm under
      refine ⟨slots, ?_, ?_, fun i hi => ?_⟩
      · rw [Nat.succ_mul, Nat.add_comm _ Object.header, ← Nat.add_assoc]
        exact (bind_of_ok hfirst).trans hrest
      · rw [hsize, Array.size_push]
        omega
      · have hne : i ≠ heap.slots.size := by omega
        rw [hkept i (by rw [Array.size_push]; omega), Array.getElem?_push, if_neg hne]

end Lox.Heap
