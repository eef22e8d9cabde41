import Mathlib.Data.Finset.Card
import Mathlib.Data.Finset.Range
import Lox.Proofs.Heap.Graph
import Lox.Proofs.Sequencing

/-!
# Marking

The mark phase of a collection is a worklist algorithm. Its invariant has three colours:
a marked object is gray as long as it is queued and black afterwards, and a black object has
only marked children. When no object is gray, the marked objects are therefore exactly those
that the roots reach.

## Main results

* `Tricolor.forM_markValue` — what marking a list of values does.
* `traceWithin_spec` — enough steps empty the gray list and keep the invariant.
-/

namespace Lox.Heap

variable {heap heap' start : Heap} {h g : Handle} {roots busy : List Handle}

/-! ### Heaps that differ in marks -/

/-- Two heaps that differ at most in their marks and gray lists. -/
structure Remarked (heap heap' : Heap) : Prop where
  slots : ∀ i : Nat, (heap'.slots[i]?).map (fun slot => (slot.object, slot.size)) =
    (heap.slots[i]?).map (fun slot => (slot.object, slot.size))
  rest : heap' = { heap with slots := heap'.slots, gray := heap'.gray }

/-- A heap differs from itself in nothing. -/
theorem Remarked.refl (heap : Heap) : Remarked heap heap := ⟨fun _ => rfl, rfl⟩

/-- Marks and gray lists may change twice. -/
theorem Remarked.trans {third : Heap} (first : Remarked heap heap')
    (second : Remarked heap' third) : Remarked heap third := by
  refine ⟨fun i => (second.slots i).trans (first.slots i), ?_⟩
  rw [second.rest, first.rest]

/-- Marks do not change the view. -/
theorem Remarked.object? (same : Remarked heap heap') (h : Handle) :
    heap'.object? h = heap.object? h := by
  have hslots := same.slots h.index
  unfold Heap.object?
  cases hs : heap.slots[h.index]? <;> cases hs' : heap'.slots[h.index]? <;> simp_all

/-- Marks do not change the size of the arena. -/
theorem Remarked.size (same : Remarked heap heap') : heap'.slots.size = heap.slots.size := by
  have none_iff : ∀ i : Nat, heap'.slots[i]? = none ↔ heap.slots[i]? = none := by
    intro i
    have hslots := same.slots i
    cases hs : heap.slots[i]? <;> cases hs' : heap'.slots[i]? <;> simp_all
  simp only [Array.getElem?_eq_none_iff] at none_iff
  have h₁ := (none_iff heap.slots.size).mpr (Nat.le_refl _)
  have h₂ := (none_iff heap'.slots.size).mp (Nat.le_refl _)
  omega

/-- Marks do not change which handles are live. -/
theorem Remarked.live_iff (same : Remarked heap heap') : heap'.Live h ↔ heap.Live h := by
  simp only [Live, same.object?]

/-! ### Marking one object -/

/-- The unmarked slots. -/
def unmarked (heap : Heap) : Finset Nat :=
  (Finset.range heap.slots.size).filter fun i => heap.marksSlot ⟨i⟩ = false

/-- The work left to a marker: every gray object and every object that may become gray. -/
def work (heap : Heap) : Nat := heap.gray.length + heap.unmarked.card

/-- A queued object: a live, unmarked one becomes marked and gray. -/
theorem mark_of_live (live : heap.Live h) (unmarked : heap.marksSlot h = false) :
    ∃ heap', mark h heap = .ok () heap' ∧ Remarked heap heap' ∧ heap'.gray = h :: heap.gray ∧
      ∀ g, heap'.marksSlot g = (heap.marksSlot g || decide (g = h)) := by
  obtain ⟨o, ho⟩ := live
  obtain ⟨slot, hslot, hobject⟩ := object?_eq_some_iff.mp ho
  have hmarked : slot.marked = false := by simpa [marksSlot, hslot] using unmarked
  refine ⟨_, by simp only [mark, hslot, hmarked, hobject]; rfl, ⟨fun i => ?_, rfl⟩, rfl,
    fun g => ?_⟩
  · simp only [Array.getElem?_modify]
    split
    · cases heap.slots[i]? <;> rfl
    · rfl
  · simp only [marksSlot, Array.getElem?_modify]
    by_cases heq : g = h
    · subst heq
      simp [hslot]
    · have hne : h.index ≠ g.index := fun hi => heq (by cases g; cases h; simp_all)
      simp [hne, heq]

/-- An object that is marked or freed is not queued. -/
theorem mark_of_not_queued (range : heap.InRange h)
    (skip : heap.marksSlot h = true ∨ ¬ heap.Live h) : mark h heap = .ok () heap := by
  have hslot : heap.slots[h.index]? = some heap.slots[h.index] := Array.getElem?_eq_getElem range
  unfold mark
  rw [hslot]
  have hskip : (heap.slots[h.index].marked || heap.slots[h.index].object.isNone) = true := by
    rcases skip with marked | dead
    · simp [marksSlot, hslot] at marked
      simp [marked]
    · cases hobject : heap.slots[h.index].object with
      | none => simp
      | some o => exact absurd ⟨o, object?_eq_some_iff.mpr ⟨_, hslot, hobject⟩⟩ dead
  simp only [hskip, if_true]

/-- Marking an object queues at most that object, and does one step of work in advance. -/
theorem work_of_mark (range : heap.InRange h) (unmarked : heap.marksSlot h = false)
    (same : Remarked heap heap') (gray : heap'.gray = h :: heap.gray)
    (marks : ∀ g, heap'.marksSlot g = (heap.marksSlot g || decide (g = h))) :
    heap'.work = heap.work := by
  have herase : heap'.unmarked = heap.unmarked.erase h.index := by
    ext i
    simp only [Heap.unmarked, Finset.mem_filter, Finset.mem_range, Finset.mem_erase, same.size,
      marks, Bool.or_eq_false_iff, decide_eq_false_iff_not]
    constructor
    · rintro ⟨hi, hunmarked, hne⟩
      exact ⟨fun heq => hne (by rw [heq]), hi, hunmarked⟩
    · rintro ⟨hne, hi, hunmarked⟩
      exact ⟨hi, hunmarked, fun heq => hne (by rw [← heq])⟩
  have hmem : h.index ∈ heap.unmarked := by
    simp only [Heap.unmarked, Finset.mem_filter, Finset.mem_range]
    exact ⟨range, unmarked⟩
  have hcard := Finset.card_erase_add_one hmem
  simp only [work, gray, herase, List.length_cons]
  omega

/-! ### The invariant -/

/-- The **tricolour invariant** of a mark phase that began at `start` with given roots. The
objects in `busy` have left the gray list but not all their children are marked yet. -/
structure Tricolor (start : Heap) (roots busy : List Handle) (heap : Heap) : Prop where
  remarked : Remarked start heap
  reached : ∀ g, heap.marksSlot g → start.Live g ∧ start.Reaches roots g
  gray_marked : ∀ g ∈ heap.gray, heap.marksSlot g
  black : ∀ g o, heap.marksSlot g → g ∉ heap.gray → g ∉ busy → start.object? g = some o →
    ∀ c, .object c ∈ o.children → start.Live c → heap.marksSlot c

/-- Marking a reachable object keeps the invariant and the amount of work. -/
theorem Tricolor.mark (inv : Tricolor start roots busy heap) (range : start.InRange h)
    (reaches : start.Reaches roots h) :
    ∃ heap', Heap.mark h heap = .ok () heap' ∧ Tricolor start roots busy heap' ∧
      (∀ g, heap.marksSlot g → heap'.marksSlot g) ∧ (start.Live h → heap'.marksSlot h) ∧
      heap'.work = heap.work := by
  have hrange : heap.InRange h := by simpa [InRange, inv.remarked.size] using range
  by_cases queued : heap.marksSlot h = false ∧ heap.Live h
  · obtain ⟨hunmarked, hlive⟩ := queued
    obtain ⟨heap', hrun, hsame, hgray, hmarks⟩ := mark_of_live hlive hunmarked
    refine ⟨heap', hrun, ⟨inv.remarked.trans hsame, fun g hg => ?_, fun g hg => ?_, ?_⟩,
      fun g hg => by simp [hmarks, hg], fun _ => by simp [hmarks],
      work_of_mark hrange hunmarked hsame hgray hmarks⟩
    · rw [hmarks, Bool.or_eq_true, decide_eq_true_eq] at hg
      rcases hg with hg | rfl
      · exact inv.reached g hg
      · exact ⟨inv.remarked.live_iff.mp hlive, reaches⟩
    · rw [hgray, List.mem_cons] at hg
      rcases hg with rfl | hg
      · simp [hmarks]
      · simp [hmarks, inv.gray_marked g hg]
    · intro g o hg hngray hnbusy ho c hc hlc
      rw [hgray, List.mem_cons, not_or] at hngray
      rw [hmarks, Bool.or_eq_true, decide_eq_true_eq] at hg
      have hg' := hg.resolve_right hngray.1
      simp [hmarks, inv.black g o hg' hngray.2 hnbusy ho c hc hlc]
  · have hskip : heap.marksSlot h = true ∨ ¬ heap.Live h := by
      rcases Bool.eq_false_or_eq_true (heap.marksSlot h) with hm | hm
      · exact .inl hm
      · exact .inr fun hl => queued ⟨hm, hl⟩
    refine ⟨heap, mark_of_not_queued hrange hskip, inv, fun _ hg => hg, fun hl => ?_, rfl⟩
    exact hskip.resolve_right fun hdead => hdead (inv.remarked.live_iff.mpr hl)

/-- Marking a handle that lies out of range fails. -/
theorem mark_of_not_inRange (range : ¬ heap.InRange h) :
    Heap.mark h heap = .error .outOfRange heap := by
  have hnone : heap.slots[h.index]? = none := Array.getElem?_eq_none (Nat.not_lt.mp range)
  simp only [Heap.mark, hnone]

/-- Marking a list of objects marks all of them that are live, unless one lies out of range. -/
theorem Tricolor.forM_mark {hs : List Handle} (inv : Tricolor start roots busy heap)
    (reaches : ∀ h ∈ hs, start.Reaches roots h) :
    (∃ heap', hs.forM Heap.mark heap = .ok () heap' ∧ Tricolor start roots busy heap' ∧
      (∀ g, heap.marksSlot g → heap'.marksSlot g) ∧
      (∀ h ∈ hs, start.Live h → heap'.marksSlot h) ∧ heap'.work = heap.work) ∨
    (∃ heap', hs.forM Heap.mark heap = .error .outOfRange heap' ∧ ∃ h ∈ hs, ¬ start.InRange h) := by
  induction hs generalizing heap with
  | nil => exact .inl ⟨heap, rfl, inv, fun _ hg => hg, by simp, rfl⟩
  | cons h hs ih =>
      by_cases range : start.InRange h
      · obtain ⟨mid, hrun, hinv, hmono, hmarked, hwork⟩ := inv.mark range (reaches h (by simp))
        rw [forM_cons_of_ok hrun]
        rcases ih hinv fun g hg => reaches g (by simp [hg]) with
          ⟨heap', hrest, hinv', hmono', hmarked', hwork'⟩ | ⟨heap', hrest, g, hg, hfar⟩
        · refine .inl ⟨heap', hrest, hinv', fun g hg => hmono' g (hmono g hg), fun g hg hl => ?_,
            hwork'.trans hwork⟩
          rcases List.mem_cons.mp hg with rfl | hg
          · exact hmono' _ (hmarked hl)
          · exact hmarked' g hg hl
        · exact .inr ⟨heap', hrest, g, by simp [hg], hfar⟩
      · have hfar : ¬ heap.InRange h := by simpa [InRange, inv.remarked.size] using range
        exact .inr ⟨heap, bind_of_error (mark_of_not_inRange hfar), h, by simp, range⟩

/-- Marking values is marking the objects among them. -/
theorem forM_markValue (values : List Value) :
    values.forM markValue = (values.filterMap Value.handle?).forM Heap.mark := by
  induction values with
  | nil => rfl
  | cons value values ih =>
      have step : (value :: values).forM markValue =
          (do markValue value; (values.filterMap Value.handle?).forM Heap.mark) := by
        rw [← ih]
        rfl
      rw [step]
      cases value <;> rfl

/-- The objects among a list of values. -/
theorem mem_filterMap_handle? {values : List Value} :
    h ∈ values.filterMap Value.handle? ↔ .object h ∈ values := by
  simp only [List.mem_filterMap]
  constructor
  · rintro ⟨value, hmem, hvalue⟩
    cases value <;> simp_all [Value.handle?]
  · exact fun hmem => ⟨_, hmem, rfl⟩

/-! ### Tracing -/

/-- A heap **strays** from given roots when they reach a handle that lies out of range. -/
def Strays (heap : Heap) (roots : List Handle) : Prop :=
  ∃ h, heap.Reaches roots h ∧ ¬ heap.InRange h

/-- Taking an object off the gray list and marking its children keeps the invariant, and one
step of work is done. -/
theorem Tricolor.blacken {gray : List Handle} (inv : Tricolor start roots [] heap)
    (hgray : heap.gray = h :: gray) :
    (∃ heap', Heap.blacken h { heap with gray } = .ok () heap' ∧ Tricolor start roots [] heap' ∧
      (∀ g, heap.marksSlot g → heap'.marksSlot g) ∧ heap'.work + 1 = heap.work) ∨
    (∃ heap', Heap.blacken h { heap with gray } = .error .outOfRange heap' ∧
      start.Strays roots) := by
  have hmarked : heap.marksSlot h := inv.gray_marked h (by simp [hgray])
  obtain ⟨⟨o, ho⟩, hreach⟩ := inv.reached h hmarked
  have popped : Tricolor start roots [h] { heap with gray } := by
    refine ⟨⟨inv.remarked.slots, by rw [inv.remarked.rest]⟩, inv.reached, fun g hg => ?_, ?_⟩
    · exact inv.gray_marked g (by simp [hgray, hg])
    · intro g o hg hngray hnbusy
      exact inv.black g o hg (by simp_all) (by simp)
  have hrun : Heap.blacken h { heap with gray } =
      (o.children.filterMap Value.handle?).forM Heap.mark { heap with gray } := by
    have hobject : Heap.object { heap with gray } h = .ok o :=
      object_of_object? ((popped.remarked.object? h).trans ho)
    simp only [Heap.blacken, hobject, forM_markValue]
  have hchild : ∀ c ∈ o.children.filterMap Value.handle?, start.Reaches roots c :=
    fun c hc => hreach.child ho (mem_filterMap_handle?.mp hc)
  rw [hrun]
  rcases popped.forM_mark hchild with
    ⟨heap', hmark, hinv, hmono, hall, hwork⟩ | ⟨heap', hmark, c, hc, hfar⟩
  · refine .inl ⟨heap', hmark, ⟨hinv.remarked, hinv.reached, hinv.gray_marked, ?_⟩, hmono, ?_⟩
    · intro g o' hg hngray _ ho' c hc hlc
      by_cases heq : g = h
      · subst heq
        obtain rfl : o' = o := Option.some.inj (ho'.symm.trans ho)
        exact hall c (mem_filterMap_handle?.mpr hc) hlc
      · exact hinv.black g o' hg hngray (by simp [heq]) ho' c hc hlc
    · have hpop : Heap.work { heap with gray } + 1 = heap.work := by
        show gray.length + heap.unmarked.card + 1 = heap.gray.length + heap.unmarked.card
        rw [hgray, List.length_cons]
        omega
      omega
  · exact .inr ⟨heap', hmark, c, hchild c hc, hfar⟩

/-- As many steps as there is work empty the gray list, unless the heap strays. -/
theorem traceWithin_spec {steps : Nat} (inv : Tricolor start roots [] heap)
    (enough : heap.work ≤ steps) :
    (∃ heap', traceWithin steps heap = .ok () heap' ∧ Tricolor start roots [] heap' ∧
      heap'.gray = [] ∧ ∀ g, heap.marksSlot g → heap'.marksSlot g) ∨
    (∃ heap', traceWithin steps heap = .error .outOfRange heap' ∧ start.Strays roots) := by
  induction steps generalizing heap with
  | zero =>
      have hgray : heap.gray = [] := by
        simp only [work] at enough
        exact List.eq_nil_of_length_eq_zero (by omega)
      exact .inl ⟨heap, rfl, inv, hgray, fun _ hg => hg⟩
  | succ steps ih =>
      cases hgray : heap.gray with
      | nil => exact .inl ⟨heap, by simp [traceWithin, hgray], inv, hgray, fun _ hg => hg⟩
      | cons h gray =>
          simp only [traceWithin, hgray]
          rcases inv.blacken hgray with ⟨mid, hrun, hinv, hmono, hwork⟩ | ⟨mid, hrun, hstray⟩
          · rw [bind_of_ok hrun]
            rcases ih hinv (by omega) with ⟨heap', hrest, hinv', hdone, hmono'⟩ | hstray
            · exact .inl ⟨heap', hrest, hinv', hdone, fun g hg => hmono' g (hmono g hg)⟩
            · exact .inr hstray
          · exact .inr ⟨mid, bind_of_error hrun, hstray⟩

/-- The arena has at least as many slots as there are unmarked ones, so the steps of a trace
are enough. -/
theorem work_le (heap : Heap) : heap.work ≤ heap.gray.length + heap.slots.size := by
  have : heap.unmarked.card ≤ heap.slots.size := by
    simpa [unmarked] using Finset.card_filter_le (Finset.range heap.slots.size) _
  simp only [work]
  omega

/-- A mark phase that is over has marked exactly the live objects that the roots reach. -/
theorem Tricolor.marksSlot_iff (inv : Tricolor start roots [] heap) (done : heap.gray = [])
    (rooted : ∀ g ∈ roots, start.Live g → heap.marksSlot g) :
    heap.marksSlot h ↔ start.Live h ∧ start.Reaches roots h := by
  refine ⟨inv.reached h, ?_⟩
  rintro ⟨hlive, hreach⟩
  induction hreach with
  | root hmem => exact rooted _ hmem hlive
  | child _ ho hchild ih =>
      exact inv.black _ _ (ih ⟨_, ho⟩) (by simp [done]) (by simp) ho _ hchild hlive

end Lox.Heap
