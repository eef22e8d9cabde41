import Lox.Proofs.Heap.History

/-!
# The books of the arena

How many objects a history has allocated, and how many bytes they were charged, can be read off
the arena at any time: an object is in an occupied slot or among those that collections have
freed, and so are its bytes.

Inside an allocation the books do not balance. The new object is charged before a collection that
may run, and that collection sweeps an arena in which the object has no slot yet. The invariant
therefore has a *pending* amount, which an allocation opens with its charge, which a collection
carries along, and which closes when the object is placed.

## Convention

An object is charged the size it has when it is allocated, and its slot records that size. An
object that is changed in place later is still entered with the size it was charged.

## Main definitions

* `total`, `recorded` — sums over slots.
* `Booked` — the books balance up to a pending amount.

## Main results

* `Booked.collect`, `Booked.place`, `Booked.allocate`, `Booked.replace` — the books are kept.
-/

namespace Lox.Heap

variable {heap heap' : Heap} {h g : Handle} {roots : List Handle} {o : Object}

/-! ### Adding up slots -/

/-- The sum of a figure over a list of slots. -/
def total (figure : Slot → Nat) : List Slot → Nat
  | [] => 0
  | slot :: slots => figure slot + total figure slots

/-- One for an occupied slot. -/
def occupied (slot : Slot) : Nat := if slot.object.isSome then 1 else 0

/-- The size that an occupied slot records. -/
def recordedSize (slot : Slot) : Nat := if slot.object.isSome then slot.size else 0

/-- One for a slot that a sweep frees. -/
def doomedOne (slot : Slot) : Nat := if slot.isDoomed then 1 else 0

/-- The size recorded in a slot that a sweep frees. -/
def doomedSize (slot : Slot) : Nat := if slot.isDoomed then slot.size else 0

/-- The sum of the sizes that the occupied slots record. -/
def recorded (heap : Heap) : Nat := total recordedSize heap.slots.toList

section Totals

variable {figure other : Slot → Nat}

theorem total_append (figure : Slot → Nat) (slots more : List Slot) :
    total figure (slots ++ more) = total figure slots + total figure more := by
  induction slots with
  | nil => simp [total]
  | cons slot slots ih => simp [total, ih, Nat.add_assoc]

/-- Filling a slot that counts for nothing adds its new figure. -/
theorem total_set (figure : Slot → Nat) {slots : List Slot} {i : Nat} (hi : i < slots.length)
    (nothing : figure slots[i] = 0) (slot : Slot) :
    total figure (slots.set i slot) = total figure slots + figure slot := by
  induction slots generalizing i with
  | nil => simp at hi
  | cons first slots ih =>
      cases i with
      | zero =>
          simp only [List.getElem_cons_zero] at nothing
          simp only [List.set_cons_zero, total]
          omega
      | succ i =>
          simp only [List.getElem_cons_succ] at nothing
          simp only [List.set_cons_succ, total, ih (by simpa using hi) nothing]
          omega

/-- A figure that is split slot by slot is split in total. -/
theorem total_map_add {change : Slot → Slot}
    (each : ∀ slot, figure (change slot) + other slot = figure slot) (slots : List Slot) :
    total figure (slots.map change) + total other slots = total figure slots := by
  induction slots with
  | nil => rfl
  | cons slot slots ih =>
      have := each slot
      simp only [List.map_cons, total]
      omega

/-- Slots with the same figures one by one have the same total. -/
theorem total_congr {slots slots' : List Slot}
    (same : slots'.map figure = slots.map figure) : total figure slots' = total figure slots := by
  induction slots generalizing slots' with
  | nil => simp_all
  | cons slot slots ih =>
      obtain ⟨slot', slots', rfl, hslot, hslots⟩ := List.map_eq_cons_iff.mp same
      simp only [total, hslot, ih hslots]

/-- The bytes that a sweep gives back are a total. -/
theorem doomedBytes_eq (heap : Heap) : heap.doomedBytes = total doomedSize heap.slots.toList := by
  have fold : ∀ (slots : List Slot) (start : Nat),
      slots.foldl (fun sum slot => if slot.isDoomed then sum + slot.size else sum) start =
        start + total doomedSize slots := by
    intro slots
    induction slots with
    | nil => intro start; rfl
    | cons slot slots ih =>
        intro start
        simp only [List.foldl_cons, ih, total, doomedSize]
        cases slot.isDoomed with
        | false => simp
        | true => simp [Nat.add_assoc]
  rw [doomedBytes, ← Array.foldl_toList, fold, Nat.zero_add]

/-- The number of slots that a sweep frees is a total. -/
theorem length_doomed (heap : Heap) :
    heap.doomed.length = total doomedOne heap.slots.toList := by
  have filter : ∀ slots : List Slot, ((List.range slots.length).filter fun i =>
      (slots[i]?.map Slot.isDoomed).getD false).length = total doomedOne slots := by
    intro slots
    induction slots with
    | nil => rfl
    | cons slot slots ih =>
        rw [List.length_cons, List.range_succ_eq_map, List.filter_cons,
          List.filter_map, total, ← ih]
        simp only [Function.comp_def, List.getElem?_cons_succ, List.getElem?_cons_zero,
          Option.map_some, Option.getD_some, doomedOne]
        split <;> simp [Nat.add_comm]
  rw [← filter, doomed]
  simp only [Array.getElem?_toList, Array.length_toList]

/-- A sweep splits the sizes of the occupied slots. -/
theorem total_recordedSize_swept (slots : List Slot) :
    total recordedSize (slots.map Slot.swept) + total doomedSize slots =
      total recordedSize slots := by
  refine total_map_add (fun slot => ?_) slots
  unfold recordedSize doomedSize Slot.swept
  cases hdoomed : slot.isDoomed <;> simp_all [Slot.isDoomed]

/-- A sweep splits the occupied slots. -/
theorem total_occupied_swept (slots : List Slot) :
    total occupied (slots.map Slot.swept) + total doomedOne slots = total occupied slots := by
  refine total_map_add (fun slot => ?_) slots
  unfold occupied doomedOne Slot.swept
  cases hdoomed : slot.isDoomed <;> simp_all [Slot.isDoomed]

end Totals

/-! ### What the phases of a collection leave alone -/

/-- Marking an object changes marks only. -/
theorem remarked_of_mark (run : mark h heap = .ok () heap') : Remarked heap heap' := by
  by_cases range : heap.InRange h
  · by_cases queued : heap.Live h ∧ heap.marksSlot h = false
    · obtain ⟨_, hok, hsame, -, -⟩ := mark_of_live queued.1 queued.2
      cases run.symm.trans hok
      exact hsame
    · have hskip : heap.marksSlot h = true ∨ ¬ heap.Live h := by
        rcases Bool.eq_false_or_eq_true (heap.marksSlot h) with hm | hm
        · exact .inl hm
        · exact .inr fun hl => queued ⟨hl, hm⟩
      cases run.symm.trans (mark_of_not_queued range hskip)
      exact .refl _
  · cases run.symm.trans (mark_of_not_inRange range)

/-- Marking a list of objects changes marks only. -/
theorem remarked_of_forM_mark {hs : List Handle} (run : hs.forM mark heap = .ok () heap') :
    Remarked heap heap' := by
  induction hs generalizing heap with
  | nil =>
      cases run
      exact .refl _
  | cons h hs ih =>
      obtain ⟨⟨⟩, mid, hmark, hrest⟩ := bind_eq_ok_iff.mp run
      exact (remarked_of_mark hmark).trans (ih hrest)

/-- Tracing changes marks only. -/
theorem remarked_of_traceWithin {steps : Nat} (run : traceWithin steps heap = .ok () heap') :
    Remarked heap heap' := by
  induction steps generalizing heap with
  | zero =>
      cases run
      exact .refl _
  | succ steps ih =>
      unfold traceWithin at run
      split at run
      · cases run
        exact .refl _
      · rename_i h gray hgray
        obtain ⟨⟨⟩, mid, hblacken, hrest⟩ := bind_eq_ok_iff.mp run
        have popped : Remarked heap { heap with gray } := ⟨fun _ => rfl, rfl⟩
        refine (popped.trans ?_).trans (ih hrest)
        unfold blacken at hblacken
        split at hblacken
        · cases hblacken
        · rw [forM_markValue] at hblacken
          exact remarked_of_forM_mark hblacken

/-- The mark phase of a collection changes marks only. -/
theorem remarked_of_markPhase (run : (do roots.forM mark; trace) heap = .ok () heap') :
    Remarked heap heap' := by
  obtain ⟨⟨⟩, mid, hroots, htrace⟩ := bind_eq_ok_iff.mp run
  exact (remarked_of_forM_mark hroots).trans (remarked_of_traceWithin htrace)

/-- A figure that does not look at marks has the same total before and after marking. -/
theorem Remarked.total_eq (same : Remarked heap heap') {figure : Slot → Nat}
    (blind : ∀ slot slot' : Slot, slot'.object = slot.object → slot'.size = slot.size →
      figure slot' = figure slot) :
    total figure heap'.slots.toList = total figure heap.slots.toList := by
  refine total_congr (List.ext_getElem? fun i => ?_)
  have hslots := same.slots i
  simp only [List.getElem?_map, Array.getElem?_toList]
  cases hs : heap.slots[i]? with
  | none => cases hs' : heap'.slots[i]? <;> simp_all
  | some slot =>
      cases hs' : heap'.slots[i]? with
      | none => simp_all
      | some slot' =>
          rw [hs, hs', Option.map_some, Option.map_some, Option.some.injEq, Prod.mk.injEq] at hslots
          rw [Option.map_some, Option.map_some, blind slot slot' hslots.1 hslots.2]

/-! ### The books -/

/-- The books of an arena **balance** up to a pending amount, after a number of allocations with
a number of bytes charged. -/
structure Booked (pending made charged : Nat) (heap : Heap) : Prop where
  /-- No free slot is lost. -/
  free_all : ∀ h, heap.InRange h → ¬ heap.Live h → h.index ∈ heap.free
  bytes : heap.bytes = heap.recorded + pending
  objects : heap.tally.objectsFreed + total occupied heap.slots.toList = made
  charged : heap.tally.bytesFreed + heap.bytes = charged

namespace Booked

variable {pending made charged size : Nat}

/-- The books of an empty heap are empty. -/
theorem empty (policy : Policy) : Booked 0 0 0 (Heap.empty policy) := by
  refine ⟨fun h hrange => ?_, rfl, rfl, rfl⟩
  simp [InRange, Heap.empty] at hrange

/-- An object is charged before it is placed. -/
theorem charge (booked : Booked pending made charged heap) (size : Nat) :
    Booked (pending + size) made (charged + size) (heap.charge size) := by
  refine ⟨booked.free_all, ?_, booked.objects, ?_⟩
  · have := booked.bytes
    show heap.bytes + size = heap.recorded + (pending + size)
    omega
  · have := booked.charged
    show heap.tally.bytesFreed + (heap.bytes + size) = charged + size
    omega

/-- Marks are not in the books. -/
theorem remarked (booked : Booked pending made charged heap) (same : Remarked heap heap') :
    Booked pending made charged heap' := by
  have hbytes : heap'.bytes = heap.bytes := by rw [same.rest]
  have htally : heap'.tally = heap.tally := by rw [same.rest]
  have hfree : heap'.free = heap.free := by rw [same.rest]
  refine ⟨fun h hrange hdead => ?_, ?_, ?_, ?_⟩
  · rw [InRange, same.size] at hrange
    rw [same.live_iff] at hdead
    exact hfree ▸ booked.free_all h hrange hdead
  · rw [hbytes, recorded, same.total_eq fun slot slot' ho hs => by simp only [recordedSize, ho, hs]]
    exact booked.bytes
  · rw [htally, same.total_eq fun slot slot' ho _ => by simp only [occupied, ho]]
    exact booked.objects
  · rw [htally, hbytes]
    exact booked.charged

/-- A sweep gives back no more bytes than are in use. -/
theorem doomedBytes_le (booked : Booked pending made charged heap) :
    heap.doomedBytes ≤ heap.bytes := by
  have sizes := total_recordedSize_swept heap.slots.toList
  rw [doomedBytes_eq, booked.bytes, recorded]
  omega

/-- A sweep moves what it frees from one side of the books to the other. -/
theorem sweep (booked : Booked pending made charged heap) (wide : heap.handles = 0) :
    Booked pending made charged heap.sweep := by
  have sizes := total_recordedSize_swept heap.slots.toList
  have counts := total_occupied_swept heap.slots.toList
  have hdoomed := doomedBytes_eq heap
  have hlength := length_doomed heap
  have hle := booked.doomedBytes_le
  obtain ⟨hfree, hbytes, hobjects, hcharged⟩ := booked
  refine ⟨fun h hrange hdead => ?_, ?_, ?_, ?_⟩
  · rw [inRange_sweep] at hrange
    rw [Live, object?_sweep] at hdead
    rw [free_sweep wide, List.mem_append]
    by_cases live : heap.Live h
    · refine .inl (List.mem_reverse.mpr (mem_doomed.mpr ⟨live, ?_⟩))
      by_contra hmarked
      rw [Bool.not_eq_false] at hmarked
      rw [if_pos hmarked] at hdead
      exact hdead live
    · exact .inr (hfree h hrange live)
  · show heap.bytes - heap.doomedBytes = total recordedSize (heap.slots.map Slot.swept).toList +
      pending
    rw [Array.toList_map]
    rw [recorded] at hbytes
    omega
  · show heap.tally.objectsFreed + heap.doomed.length +
      total occupied (heap.slots.map Slot.swept).toList = made
    rw [Array.toList_map]
    omega
  · show heap.tally.bytesFreed + heap.doomedBytes + (heap.bytes - heap.doomedBytes) = charged
    omega

/-- A collection keeps the books, whatever amount is pending. -/
theorem collect (booked : Booked pending made charged heap) (wide : heap.handles = 0)
    (run : Heap.collect roots heap = .ok () heap') : Booked pending made charged heap' := by
  obtain ⟨⟨⟩, rooted, hroots, run⟩ := bind_eq_ok_iff.mp run
  obtain ⟨⟨⟩, traced, htrace, run⟩ := bind_eq_ok_iff.mp run
  obtain ⟨⟨⟩, swept, hsweep, run⟩ := bind_eq_ok_iff.mp run
  cases hsweep
  have same := (remarked_of_forM_mark hroots).trans (remarked_of_traceWithin htrace)
  have marked := booked.remarked same
  have forgotten : Booked pending made charged traced.forgetStrings :=
    ⟨marked.free_all, marked.bytes, marked.objects, marked.charged⟩
  obtain ⟨hfree, hbytes, hobjects, hcharged⟩ :=
    forgotten.sweep ((congrArg handles same.rest).trans wide)
  dsimp only [rearm] at run
  split at run
  · cases run
  · cases run
    exact ⟨hfree, hbytes, hobjects, hcharged⟩

/-- The slot of a new object takes up the pending amount. -/
theorem place (booked : Booked size made charged heap) (orderly : heap.Orderly)
    (run : Heap.place o size heap = .ok h heap') : Booked 0 (made + 1) charged heap' := by
  obtain ⟨hfree, hbytes, hobjects, hcharged⟩ := booked
  obtain ⟨_, _, hrun, hplaced⟩ := place_spec orderly o size
  cases run.symm.trans hrun
  have hself : heap'.Live h := ⟨o, hplaced.object?_self⟩
  have hdead : ∀ g, ¬ heap'.Live g → ¬ heap.Live g := by
    rintro g hg ⟨old, hold⟩
    exact hg ⟨old, hplaced.object?_of_object? hold⟩
  have hnew : occupied { object := some o, size } = 1 ∧
      recordedSize { object := some o, size } = size := ⟨rfl, rfl⟩
  unfold Heap.place at run
  split at run
  · rename_i i free hcons
    obtain ⟨hrange, hempty⟩ := orderly.free_empty i (by simp [hcons])
    have hi : i < heap.slots.toList.length := hrange
    have hnone : heap.slots[i].object = none := by
      by_contra hsome
      obtain ⟨old, hold⟩ := Option.ne_none_iff_exists'.mp hsome
      exact hempty ⟨old, object?_eq_some_iff.mpr ⟨_, Array.getElem?_eq_getElem hrange, hold⟩⟩
    have hcount := total_set occupied hi (by simp [occupied, hnone])
      { object := some o, size }
    have hsize := total_set recordedSize hi (by simp [recordedSize, hnone])
      { object := some o, size }
    have hslots : (heap.slots.set! i { object := some o, size }).toList =
        heap.slots.toList.set i { object := some o, size } := by
      simp [Array.set!_eq_setIfInBounds]
    cases run
    refine ⟨fun g hg hg' => ?_, ?_, ?_, hcharged⟩
    · have hmem := hfree g (by simpa [InRange] using hg) (hdead g hg')
      rw [hcons, List.mem_cons] at hmem
      refine hmem.resolve_left ?_
      rintro rfl
      exact hg' hself
    · rw [recorded, hslots]
      rw [recorded] at hbytes
      show heap.bytes = _
      omega
    · rw [hslots]
      show heap.tally.objectsFreed + _ = _
      omega
  · rename_i hnil
    cases run
    refine ⟨fun g hg hg' => ?_, ?_, ?_, hcharged⟩
    · rw [handle_of_wide orderly.wide] at hself
      by_cases hlast : g = ⟨heap.slots.size⟩
      · exact absurd (hlast ▸ hself) hg'
      · have hne : g.index ≠ heap.slots.size := fun heq => hlast (by rw [← heq])
        rw [InRange, Array.size_push] at hg
        exact hnil ▸ hfree g (by rw [InRange]; omega) (hdead g hg')
    · rw [recorded, Array.toList_push, total_append]
      rw [recorded] at hbytes
      show heap.bytes = _ + (_ + 0) + 0
      omega
    · rw [Array.toList_push, total_append]
      show heap.tally.objectsFreed + (_ + (_ + 0)) = _
      omega

/-- An allocation enters its object. -/
theorem allocate (booked : Booked 0 made charged heap) (orderly : heap.Orderly)
    (run : Heap.allocate o roots heap = .ok h heap') :
    Booked 0 (made + 1) (charged + o.size) heap' := by
  have open' : Booked o.size made (charged + o.size) (heap.charge o.size) := by
    simpa using booked.charge o.size
  have hcharged : (heap.charge o.size).Orderly := orderly.congr rfl rfl rfl rfl
  unfold Heap.allocate at run
  rw [bind_of_ok (modify_apply _ heap), bind_of_ok (get_apply _)] at run
  by_cases due : (heap.charge o.size).isDue
  · rw [if_pos due] at run
    obtain ⟨⟨⟩, mid, hcollect, hplace⟩ := bind_eq_ok_iff.mp run
    exact (open'.collect hcharged.wide hcollect).place
      (collected_of_ok hcharged hcollect).orderly hplace
  · rw [if_neg due] at run
    exact open'.place hcharged run

/-- A change in place is not entered: the slot still records what was charged. -/
theorem replace (booked : Booked pending made charged heap) (live : heap.Live h) (o : Object) :
    Booked pending made charged (heap.replace h o) := by
  obtain ⟨hfree, hbytes, hobjects, hcharged⟩ := booked
  obtain ⟨old, hold⟩ := live
  obtain ⟨slot, hslot, hobject⟩ := object?_eq_some_iff.mp hold
  have same : ∀ figure : Slot → Nat,
      (∀ slot : Slot, slot.object.isSome → figure { slot with object := some o } = figure slot) →
      total figure (heap.replace h o).slots.toList = total figure heap.slots.toList := by
    intro figure hfigure
    refine total_congr (List.ext_getElem? fun i => ?_)
    simp only [List.getElem?_map, Array.getElem?_toList, Heap.replace, Array.getElem?_modify]
    split
    · rename_i heq
      rw [← heq, hslot]
      simp only [Option.map_some, hfigure slot (by simp [hobject])]
    · rfl
  refine ⟨fun g hg hg' => ?_, ?_, ?_, hcharged⟩
  · rw [live_replace ⟨old, hold⟩] at hg'
    exact hfree g (by simpa [InRange, Heap.replace] using hg) hg'
  · rw [recorded, same recordedSize fun slot hsome => by simp [recordedSize, hsome]]
    exact hbytes
  · rw [same occupied fun slot hsome => by simp [occupied, hsome]]
    exact hobjects

/-- The intern table is not in the books. -/
theorem enlist (booked : Booked pending made charged heap) (hash : UInt64) (h : Handle) :
    Booked pending made charged (Heap.enlist hash h heap) :=
  ⟨booked.free_all, booked.bytes, booked.objects, booked.charged⟩

end Booked

end Lox.Heap
