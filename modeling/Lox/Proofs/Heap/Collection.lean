import Lox.Proofs.Heap.Marking

/-!
# Collections

A collection keeps exactly the live objects that its roots and the gray objects reach. Every
survivor keeps its handle and its contents, and the arena is in order again: its free list is
right and no mark is left.

There are two ways for a collection to fail. The product of the live bytes and the growth
factor may leave the machine word; and the roots may reach a handle that lies out of range,
which does not happen in a sound heap with live roots.

## Main results

* `Heap.Orderly`, `Heap.Sound` — the invariant of the arena, without and with the demand that
  no object refers to a freed one.
* `Heap.Collected` — what a heap looks like after a collection.
* `collect_cases`, `collect_spec` — how a collection ends.
-/

namespace Lox.Heap

variable {heap heap' start : Heap} {h g : Handle} {roots : List Handle}

/-! ### Sound heaps -/

/-- The invariant of the arena between two operations. Only gray objects are marked then, and
they are marked because the host asked for it. -/
structure Orderly (heap : Heap) : Prop where
  wide : heap.handles = 0
  free_nodup : heap.free.Nodup
  free_empty : ∀ i ∈ heap.free, heap.InRange ⟨i⟩ ∧ ¬ heap.Live ⟨i⟩
  gray_iff : ∀ h, h ∈ heap.gray ↔ heap.marksSlot h
  gray_live : ∀ h ∈ heap.gray, heap.Live h

/-- An orderly heap is **sound** when no object refers to a freed one. -/
structure Sound (heap : Heap) : Prop extends Orderly heap where
  closed : heap.Closed

/-- An empty heap is sound. -/
theorem sound_empty (policy : Policy) : (empty policy).Sound := by
  have hnone : ∀ h, (empty policy).object? h = none := fun h => by simp [empty, object?]
  refine ⟨⟨rfl, List.nodup_nil, by simp [empty], fun h => by simp [empty, marksSlot],
    by simp [empty]⟩, fun g o ho => ?_⟩
  simp [hnone] at ho

/-- The marked objects of an orderly heap are live. -/
theorem Orderly.live_of_marked (orderly : heap.Orderly) (marked : heap.marksSlot h) :
    heap.Live h :=
  orderly.gray_live h ((orderly.gray_iff h).mpr marked)

/-- A sound heap does not stray from live roots. -/
theorem Sound.not_strays (sound : heap.Sound) (live : ∀ g ∈ roots, heap.Live g) :
    ¬ heap.Strays roots := by
  rintro ⟨h, hreach, hfar⟩
  exact hfar (sound.closed.live_of_reaches live hreach).inRange

/-- An orderly heap may begin a mark phase whose roots include the gray objects. -/
theorem Orderly.tricolor (orderly : heap.Orderly) (roots : List Handle) :
    Tricolor heap (roots ++ heap.gray) [] heap := by
  refine ⟨.refl heap, fun g hg => ?_, fun g hg => (orderly.gray_iff g).mp hg, ?_⟩
  · have hgray := (orderly.gray_iff g).mpr hg
    exact ⟨orderly.gray_live g hgray, .root (by simp [hgray])⟩
  · intro g o hg hngray
    exact absurd ((orderly.gray_iff g).mpr hg) hngray

/-! ### Sweeping -/

/-- After a sweep, the marked objects are there and no others. -/
theorem object?_sweep (heap : Heap) (h : Handle) :
    heap.sweep.object? h = if heap.marksSlot h then heap.object? h else none := by
  unfold object? marksSlot sweep
  simp only [Array.getElem?_map]
  cases heap.slots[h.index]? with
  | none => simp
  | some slot =>
      cases hmarked : slot.marked <;> cases hobject : slot.object <;>
        simp [Slot.swept, Slot.isDoomed, hmarked, hobject]

/-- A sweep clears all marks. -/
theorem marksSlot_sweep (heap : Heap) (h : Handle) : heap.sweep.marksSlot h = false := by
  unfold marksSlot sweep
  simp only [Array.getElem?_map]
  cases heap.slots[h.index]? <;> simp [Slot.swept]

/-- A sweep does not change the size of the arena. -/
theorem inRange_sweep : heap.sweep.InRange h ↔ heap.InRange h := by
  simp [InRange, sweep]

/-- The slots that a sweep frees are those of live, unmarked objects. -/
theorem mem_doomed {i : Nat} : i ∈ heap.doomed ↔ heap.Live ⟨i⟩ ∧ heap.marksSlot ⟨i⟩ = false := by
  simp only [doomed, List.mem_filter, List.mem_range, Live, object?, marksSlot]
  cases hslot : heap.slots[i]? with
  | none => simp
  | some slot =>
      have hi : i < heap.slots.size := (Array.getElem?_eq_some_iff.mp hslot).1
      cases hobject : slot.object <;> simp [hi, Slot.isDoomed, hobject]

/-- Without a bound on handles, every slot has its own. -/
theorem handle_of_wide (wide : heap.handles = 0) (i : Nat) : heap.handle i = ⟨i⟩ := by
  simp [handle, wide]

/-- The free list after a sweep: the slots it has freed, on top of those that were free. -/
theorem free_sweep (wide : heap.handles = 0) :
    heap.sweep.free = heap.doomed.reverse ++ heap.free := by
  simp [sweep, handle_of_wide wide]

/-- The free list after a sweep names every free slot at most once. -/
theorem free_nodup_sweep (wide : heap.handles = 0) (nodup : heap.free.Nodup)
    (empty : ∀ i ∈ heap.free, heap.InRange ⟨i⟩ ∧ ¬ heap.Live ⟨i⟩) : heap.sweep.free.Nodup := by
  have hdoomed : heap.doomed.Nodup := List.nodup_range.filter _
  rw [free_sweep wide]
  refine List.nodup_append.mpr ⟨List.nodup_reverse.mpr hdoomed, nodup, ?_⟩
  rintro i hi j hj rfl
  rw [List.mem_reverse] at hi
  exact (empty i hj).2 (mem_doomed.mp hi).1

/-- The free list after a sweep names free slots only. -/
theorem free_empty_sweep (wide : heap.handles = 0)
    (empty : ∀ i ∈ heap.free, heap.InRange ⟨i⟩ ∧ ¬ heap.Live ⟨i⟩) :
    ∀ i ∈ heap.sweep.free, heap.sweep.InRange ⟨i⟩ ∧ ¬ heap.sweep.Live ⟨i⟩ := by
  intro i hi
  rw [free_sweep wide] at hi
  rw [inRange_sweep]
  simp only [Live, object?_sweep]
  rcases List.mem_append.mp hi with hi | hi
  · obtain ⟨hlive, hunmarked⟩ := mem_doomed.mp (List.mem_reverse.mp hi)
    exact ⟨hlive.inRange, by simp [hunmarked]⟩
  · obtain ⟨hrange, hdead⟩ := empty i hi
    refine ⟨hrange, ?_⟩
    rintro ⟨o, ho⟩
    split at ho
    · exact hdead ⟨o, ho⟩
    · cases ho

/-! ### Whole collections -/

/-- A heap after a collection that began at `start`. -/
structure Collected (start : Heap) (roots : List Handle) (heap : Heap) : Prop where
  object?_iff : ∀ h o, heap.object? h = some o ↔
    start.object? h = some o ∧ start.Reaches (roots ++ start.gray) h
  strings_iff : ∀ (hash : UInt64) (bucket : List Handle), heap.strings[hash]? = some bucket ↔
    ∃ old, start.strings[hash]? = some old ∧ bucket = old.filter heap.contains ∧ bucket ≠ []
  gray : heap.gray = []
  policy : heap.policy = start.policy
  size : heap.slots.size = start.slots.size
  orderly : heap.Orderly

/-- The handles that a heap knows are the live ones. -/
theorem contains_iff : heap.contains h ↔ heap.Live h := by
  simp [contains, Live, Option.isSome_iff_exists]

/-- Only the slots, the free list, the gray list and the handles matter for the order of the
arena. -/
theorem Orderly.congr (orderly : heap.Orderly) (slots : heap'.slots = heap.slots)
    (free : heap'.free = heap.free) (gray : heap'.gray = heap.gray)
    (handles : heap'.handles = heap.handles) : heap'.Orderly := by
  have hlive : ∀ h, heap'.Live h ↔ heap.Live h := fun h => by simp [Live, object?, slots]
  refine ⟨handles.trans orderly.wide, free ▸ orderly.free_nodup, fun i hi => ?_, fun h => ?_,
    fun h hh => ?_⟩
  · rw [hlive, InRange, slots]
    exact orderly.free_empty i (free ▸ hi)
  · rw [gray, orderly.gray_iff]
    simp [marksSlot, slots]
  · exact (hlive h).mpr (orderly.gray_live h (gray ▸ hh))

/-- Only the slots, the free list, the gray list and the handles matter for soundness. -/
theorem Sound.congr (sound : heap.Sound) (slots : heap'.slots = heap.slots)
    (free : heap'.free = heap.free) (gray : heap'.gray = heap.gray)
    (handles : heap'.handles = heap.handles) : heap'.Sound := by
  have hobject : ∀ h, heap'.object? h = heap.object? h := fun h => by simp [object?, slots]
  refine ⟨sound.toOrderly.congr slots free gray handles, fun g o ho c hc => ?_⟩
  rw [Live, hobject c]
  exact sound.closed g o (hobject g ▸ ho) c hc

/-- A collection of a sound heap leaves a sound heap. -/
theorem Collected.sound (collected : Collected start roots heap) (closed : start.Closed) :
    heap.Sound := by
  refine ⟨collected.orderly, fun g o ho c hc => ?_⟩
  obtain ⟨hold, hreach⟩ := (collected.object?_iff g o).mp ho
  obtain ⟨child, hchild⟩ := closed g o hold c hc
  exact ⟨child, (collected.object?_iff c child).mpr ⟨hchild, hreach.child hold hc⟩⟩

/-- The sweep that ends a mark phase leaves what the roots reach. -/
theorem Tricolor.collected (inv : Tricolor start (roots ++ start.gray) [] heap)
    (orderly : start.Orderly) (done : heap.gray = [])
    (rooted : ∀ g ∈ roots ++ start.gray, start.Live g → heap.marksSlot g) :
    Collected start roots heap.forgetStrings.sweep := by
  have hmarks : ∀ h, heap.marksSlot h ↔
      start.Live h ∧ start.Reaches (roots ++ start.gray) h :=
    fun h => inv.marksSlot_iff done rooted
  have hview : ∀ h, heap.forgetStrings.sweep.object? h =
      if heap.marksSlot h then start.object? h else none := fun h => by
    rw [← inv.remarked.object? h]
    exact object?_sweep heap.forgetStrings h
  have hobject : ∀ h o, heap.forgetStrings.sweep.object? h = some o ↔
      start.object? h = some o ∧ start.Reaches (roots ++ start.gray) h := fun h o => by
    rw [hview]
    by_cases hm : heap.marksSlot h
    · simp [hm, ((hmarks h).mp hm).2]
    · simp only [hm, Bool.false_eq_true, if_false, reduceCtorEq, false_iff]
      exact fun hk => hm ((hmarks h).mpr ⟨⟨o, hk.1⟩, hk.2⟩)
  have hcontains : ∀ h, heap.forgetStrings.sweep.contains h = heap.marksSlot h := fun h => by
    rw [Bool.eq_iff_iff, contains_iff]
    constructor
    · rintro ⟨o, ho⟩
      exact (hmarks h).mpr ⟨⟨o, ((hobject h o).mp ho).1⟩, ((hobject h o).mp ho).2⟩
    · intro hm
      obtain ⟨⟨o, ho⟩, hr⟩ := (hmarks h).mp hm
      exact ⟨o, (hobject h o).mpr ⟨ho, hr⟩⟩
  have hfree : heap.free = start.free := by rw [inv.remarked.rest]
  have hwide : heap.forgetStrings.handles = 0 :=
    (congrArg handles inv.remarked.rest).trans orderly.wide
  have hempty : ∀ i ∈ heap.forgetStrings.free,
      heap.forgetStrings.InRange ⟨i⟩ ∧ ¬ heap.forgetStrings.Live ⟨i⟩ := fun i hi => by
    obtain ⟨hrange, hdead⟩ := orderly.free_empty i (hfree ▸ hi)
    refine ⟨?_, fun hl => hdead (inv.remarked.live_iff.mp hl)⟩
    rwa [InRange, ← inv.remarked.size] at hrange
  refine ⟨hobject, fun hash bucket => ?_, done, ?_, ?_, ?_⟩
  · have hstrings : heap.strings = start.strings := by rw [inv.remarked.rest]
    have hfilter : ∀ old : List Handle,
        old.filter heap.forgetStrings.sweep.contains = old.filter heap.marksSlot :=
      fun old => List.filter_congr fun h _ => hcontains h
    show (heap.strings.filterMap fun _ old => heap.markedStrings? old)[hash]? = some bucket ↔ _
    rw [Std.TreeMap.getElem?_filterMap', hstrings]
    simp only [Option.bind_eq_some_iff, hfilter]
    refine exists_congr fun old => and_congr_right fun _ => ?_
    unfold markedStrings?
    cases old.filter heap.marksSlot with
    | nil => simp
    | cons head tail =>
        simp only [Option.some.injEq, eq_comm (a := bucket), iff_self_and, ne_eq]
        rintro rfl
        simp
  · show heap.policy = start.policy
    rw [inv.remarked.rest]
  · simp [sweep, forgetStrings, inv.remarked.size]
  · refine ⟨hwide, free_nodup_sweep hwide (hfree ▸ orderly.free_nodup) hempty,
      free_empty_sweep hwide hempty, fun h => ?_, fun h hh => ?_⟩
    · rw [marksSlot_sweep]
      simp [sweep, forgetStrings, done]
    · simp [sweep, forgetStrings, done] at hh

/-- The product of the live bytes and the growth factor leaves the machine word. -/
def Overfull (heap : Heap) : Prop := maxWord < heap.bytes * heap.policy.growth

/-- The one fault of a heap that is used as it should be: a collection has found that the live
bytes times the growth factor leave the machine word. -/
def Lost (f : Fault) (heap : Heap) : Prop := f = .overflow ∧ heap.Overfull

/-- Setting the threshold either changes neither objects nor strings, or overflows. -/
theorem rearm_cases (heap : Heap) :
    (∃ heap', rearm heap = .ok () heap' ∧ heap'.slots = heap.slots ∧ heap'.free = heap.free ∧
      heap'.strings = heap.strings ∧ heap'.gray = heap.gray ∧ heap'.policy = heap.policy ∧
      heap'.handles = heap.handles) ∨
    (rearm heap = .error .overflow heap ∧ heap.Overfull) := by
  by_cases hover : maxWord < heap.bytes * heap.policy.growth
  · exact .inr ⟨by simp [rearm, hover], hover⟩
  · refine .inl ⟨{ heap with
      threshold := heap.bytes * heap.policy.growth
      tally := { heap.tally with collections := heap.tally.collections + 1 } }, ?_,
      rfl, rfl, rfl, rfl, rfl, rfl⟩
    simp [rearm, hover]

/-- A collection of an orderly heap keeps exactly what its roots and the gray objects reach,
unless it overflows or the heap strays. -/
theorem collect_cases (orderly : heap.Orderly) (roots : List Handle) :
    (∃ heap', collect roots heap = .ok () heap' ∧ Collected heap roots heap') ∨
    (∃ heap', collect roots heap = .error .overflow heap' ∧ heap'.Overfull) ∨
    (∃ heap', collect roots heap = .error .outOfRange heap' ∧
      heap.Strays (roots ++ heap.gray)) := by
  have inv := orderly.tricolor roots
  unfold collect
  have hroot : ∀ g ∈ roots, heap.Reaches (roots ++ heap.gray) g :=
    fun g hg => .root (by simp [hg])
  rcases inv.forM_mark hroot with
    ⟨rooted, hroots, hinv, hmono, hmarked, -⟩ | ⟨heap', hroots, g, hg, hfar⟩
  · rw [bind_of_ok hroots]
    rcases traceWithin_spec hinv (work_le rooted) with
      ⟨traced, htrace, hinv', hdone, hmono'⟩ | ⟨heap', htrace, hstray⟩
    · have hall : ∀ g ∈ roots ++ heap.gray, heap.Live g → traced.marksSlot g := by
        intro g hg hl
        rcases List.mem_append.mp hg with hg | hg
        · exact hmono' g (hmarked g hg hl)
        · exact hmono' g (hmono g ((orderly.gray_iff g).mp hg))
      have hswept := hinv'.collected orderly hdone hall
      have htrace' : trace rooted = .ok () traced := htrace
      rw [bind_of_ok htrace', bind_of_ok (modify_apply _ _)]
      rcases rearm_cases traced.forgetStrings.sweep with
        ⟨heap', hok, hslots, hfree, hstrings, hgray, hpolicy, hhandles⟩ | ⟨herror, hover⟩
      · have hview : ∀ h, heap'.object? h = traced.forgetStrings.sweep.object? h := fun h => by
          simp only [object?, hslots]
        have hcontains : heap'.contains = traced.forgetStrings.sweep.contains := by
          funext h
          simp only [contains, hview]
        refine .inl ⟨heap', hok, ⟨fun h o => ?_, fun hash bucket => ?_,
          hgray.trans hswept.gray, hpolicy.trans hswept.policy,
          (congrArg Array.size hslots).trans hswept.size,
          hswept.orderly.congr hslots hfree hgray hhandles⟩⟩
        · rw [hview]
          exact hswept.object?_iff h o
        · rw [hstrings, hcontains]
          exact hswept.strings_iff hash bucket
      · exact .inr (.inl ⟨_, herror, hover⟩)
    · have htrace' : trace rooted = .error .outOfRange heap' := htrace
      exact .inr (.inr ⟨heap', bind_of_error htrace', hstray⟩)
  · exact .inr (.inr ⟨heap', bind_of_error hroots, g, .root (by simp [hg]), hfar⟩)

/-- A collection of a sound heap with live roots keeps exactly what they reach, or
overflows. -/
theorem collect_spec (sound : heap.Sound) (live : ∀ g ∈ roots, heap.Live g) :
    (∃ heap', collect roots heap = .ok () heap' ∧ Collected heap roots heap') ∨
    (∃ heap', collect roots heap = .error .overflow heap' ∧ heap'.Overfull) := by
  rcases collect_cases sound.toOrderly roots with hok | hover | ⟨-, -, hstray⟩
  · exact .inl hok
  · exact .inr hover
  · refine absurd hstray (sound.not_strays fun g hg => ?_)
    rcases List.mem_append.mp hg with hg | hg
    · exact live g hg
    · exact sound.gray_live g hg

end Lox.Heap
