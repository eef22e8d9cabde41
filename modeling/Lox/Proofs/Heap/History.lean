import Lox.Proofs.Heap.Allocation

/-!
# Heaps and their histories

A host may use a heap in any order: it allocates objects of any kind, with any handles in their
fields, it changes closures and cells in place, it marks objects ahead of a collection, and it
collects with any roots. A *history* is a sequence of such operations that succeed.

After every history the arena is in order, and a collection keeps exactly the objects that can be
reached from its roots or from a marked object. If all strings have been interned, then the intern
table is in order, too.

## Main definitions

* `Heap.Step`, `Heap.Arises` — one operation, and the heaps that a history leads to.

## Main results

* `Arises.orderly`, `Arises.interned` — what holds after every history.
* `collect_exact` — what a collection keeps.
-/

namespace Lox.Heap

variable {heap heap' start : Heap} {h g : Handle} {roots : List Handle} {o : Object}
  {text : String} {admits : Object → Prop}

/-! ### Histories -/

/-- One operation of the host that succeeds. Only some objects may be allocated as they are.
Strings may always be interned, and closures and cells may be changed in any way. -/
inductive Step (admits : Object → Prop) (heap : Heap) : Heap → Prop
  | allocate {o : Object} {roots : List Handle} {h : Handle} {heap' : Heap} : admits o →
      Heap.allocate o roots heap = .ok h heap' → Step admits heap heap'
  | allocateClosure {function : Handle} {roots : List Handle} {h : Handle} {heap' : Heap} :
      Heap.allocateClosure function roots heap = .ok h heap' → Step admits heap heap'
  | intern {text : String} {roots : List Handle} {h : Handle} {heap' : Heap} :
      Heap.intern text roots heap = .ok h heap' → Step admits heap heap'
  | concat {first second : Handle} {roots : List Handle} {h : Handle} {heap' : Heap} :
      Heap.concat first second roots heap = .ok h heap' → Step admits heap heap'
  | edit {h : Handle} {old new : Object} : heap.object? h = some old →
      old.kind = .closure ∨ old.kind = .cell → new.kind = old.kind →
        Step admits heap (heap.replace h new)
  | mark {h : Handle} {heap' : Heap} : Heap.mark h heap = .ok () heap' → Step admits heap heap'
  | collect {roots : List Handle} {heap' : Heap} : Heap.collect roots heap = .ok () heap' →
      Step admits heap heap'

/-- The heaps that histories lead to. -/
inductive Arises (admits : Object → Prop) : Heap → Prop
  | empty (policy : Policy) : Arises admits (Heap.empty policy)
  | step {heap heap' : Heap} : Arises admits heap → Step admits heap heap' → Arises admits heap'

/-- Setting the state of a cell is a change of the cell. -/
theorem Step.setCell {state : Cell} (run : Heap.setCell h state heap = .ok () heap') :
    Step admits heap heap' := by
  unfold Heap.setCell at run
  split at run
  · cases run
  · rename_i hcell
    cases run
    exact .edit (cell_eq_ok_iff.mp hcell) (.inr rfl) rfl

/-- Adding a cell to a closure is a change of the closure. -/
theorem Step.capture {cell : Handle} (run : Heap.capture h cell heap = .ok () heap') :
    Step admits heap heap' := by
  unfold Heap.capture at run
  split at run
  · cases run
  · rename_i hclosure
    cases run
    exact .edit (closure_eq_ok_iff.mp hclosure) (.inl rfl) rfl

/-- Marking a value is marking an object or nothing. -/
theorem Step.markValue {v : Value} (run : Heap.markValue v heap = .ok () heap') :
    heap' = heap ∨ Step admits heap heap' := by
  cases v with
  | object h => exact .inr (.mark run)
  | nil | bool | number =>
      cases run
      exact .inl rfl

/-- An allocation that succeeds places its object. -/
theorem allocated_of_ok (orderly : heap.Orderly) (run : allocate o roots heap = .ok h heap') :
    Allocated heap roots o h heap' := by
  rcases allocate_cases orderly o roots with
    ⟨_, _, hok, hallocated⟩ | ⟨_, herror, -⟩ | ⟨_, herror, -⟩
  · cases run.symm.trans hok
    exact hallocated
  · cases run.symm.trans herror
  · cases run.symm.trans herror

/-- Interning that succeeds finds or places a string. -/
theorem internedAs_of_ok (orderly : heap.Orderly) (run : intern text roots heap = .ok h heap') :
    InternedAs heap roots text h heap' := by
  rcases intern_cases orderly text roots with ⟨_, _, hok, hmade⟩ | ⟨_, herror, -⟩ | ⟨_, herror, -⟩
  · cases run.symm.trans hok
    exact hmade
  · cases run.symm.trans herror
  · cases run.symm.trans herror

/-- A collection that succeeds keeps what it should. -/
theorem collected_of_ok (orderly : heap.Orderly) (run : collect roots heap = .ok () heap') :
    Collected heap roots heap' := by
  rcases collect_cases orderly roots with ⟨_, hok, hcollected⟩ | ⟨_, herror, -⟩ | ⟨_, herror, -⟩
  · cases run.symm.trans hok
    exact hcollected
  · cases run.symm.trans herror
  · cases run.symm.trans herror

/-- Joining two strings that succeeds is interning a text. -/
theorem intern_of_concat {made : Handle}
    (run : concat g h roots heap = .ok made heap') :
    ∃ text, intern text roots heap = .ok made heap' := by
  unfold concat at run
  split at run
  · cases run
  · split at run
    · cases run
    · exact ⟨_, run⟩

/-- Allocating a closure that succeeds is allocating an object that is no string. -/
theorem allocate_of_allocateClosure (run : allocateClosure g roots heap = .ok h heap') :
    ∃ room, allocate (.closure { function := g, room }) roots heap = .ok h heap' := by
  unfold allocateClosure at run
  split at run
  · cases run
  · split at run
    · cases run
    · exact ⟨_, run⟩

/-- Marking an object of an orderly heap leaves it in order, and changes neither objects nor
strings. -/
theorem orderly_of_mark (orderly : heap.Orderly) (run : mark h heap = .ok () heap') :
    heap'.Orderly ∧ (∀ g, heap'.object? g = heap.object? g) ∧ heap'.strings = heap.strings := by
  by_cases range : heap.InRange h
  · by_cases queued : heap.Live h ∧ heap.marksSlot h = false
    · obtain ⟨_, hok, hsame, hgray, hmarks⟩ := mark_of_live queued.1 queued.2
      cases run.symm.trans hok
      refine ⟨⟨?_, ?_, fun i hi => ?_, fun g => ?_, fun g hg => ?_⟩, hsame.object?, ?_⟩
      · rw [hsame.rest]
        exact orderly.wide
      · rw [hsame.rest]
        exact orderly.free_nodup
      · rw [hsame.rest] at hi
        rw [hsame.live_iff, InRange, hsame.size]
        exact orderly.free_empty i hi
      · rw [hgray, hmarks, List.mem_cons, orderly.gray_iff, Bool.or_eq_true, decide_eq_true_eq,
          or_comm]
      · rw [hgray, List.mem_cons] at hg
        rw [hsame.live_iff]
        rcases hg with rfl | hg
        · exact queued.1
        · exact orderly.gray_live g hg
      · rw [hsame.rest]
    · have hskip : heap.marksSlot h = true ∨ ¬ heap.Live h := by
        rcases Bool.eq_false_or_eq_true (heap.marksSlot h) with hm | hm
        · exact .inl hm
        · exact .inr fun hl => queued ⟨hl, hm⟩
      cases run.symm.trans (mark_of_not_queued range hskip)
      exact ⟨orderly, fun _ => rfl, rfl⟩
  · cases run.symm.trans (mark_of_not_inRange range)

/-- Every operation leaves the arena in order. -/
theorem Step.orderly (step : Step admits heap heap') (orderly : heap.Orderly) :
    heap'.Orderly := by
  have hallocate : ∀ {o roots h}, Heap.allocate o roots heap = .ok h heap' → heap'.Orderly := by
    intro o roots h run
    obtain ⟨mid, -, hplaced⟩ := allocated_of_ok orderly run
    exact hplaced.orderly
  cases step with
  | allocate _ run => exact hallocate run
  | allocateClosure run =>
      obtain ⟨c, run⟩ := allocate_of_allocateClosure run
      exact hallocate run
  | intern run => exact (internedAs_of_ok orderly run).orderly orderly
  | concat run =>
      obtain ⟨text, run⟩ := intern_of_concat run
      exact (internedAs_of_ok orderly run).orderly orderly
  | edit hold => exact orderly.replace ⟨_, hold⟩ _
  | mark run => exact (orderly_of_mark orderly run).1
  | collect run => exact (collected_of_ok orderly run).orderly

/-- The arena is in order after every history. -/
theorem Arises.orderly (arises : heap.Arises admits) : heap.Orderly := by
  induction arises with
  | empty policy => exact (sound_empty policy).toOrderly
  | step _ hstep ih => exact hstep.orderly ih

/-- Every operation that allocates no string as it is leaves the intern table in order. -/
theorem Step.interned (step : Step admits heap heap') (orderly : heap.Orderly)
    (interned : heap.Interned) (other : ∀ o, admits o → o.kind ≠ .string) : heap'.Interned := by
  have nostring : ∀ {o : Object}, o.kind ≠ .string → ∀ text, o ≠ .string text := by
    rintro o hkind text rfl
    exact hkind rfl
  cases step with
  | allocate hadmits run =>
      exact (allocated_of_ok orderly run).interned interned (nostring (other _ hadmits))
  | allocateClosure run =>
      obtain ⟨c, run⟩ := allocate_of_allocateClosure run
      exact (allocated_of_ok orderly run).interned interned nofun
  | intern run => exact (internedAs_of_ok orderly run).interned interned
  | concat run =>
      obtain ⟨text, run⟩ := intern_of_concat run
      exact (internedAs_of_ok orderly run).interned interned
  | edit hold hmutable hkind =>
      have hno : ∀ {o : Object}, o.kind = .closure ∨ o.kind = .cell → o.kind ≠ .string := by
        rintro o (h | h) <;> rw [h] <;> nofun
      exact interned.replace hold (nostring (hno hmutable)) (nostring (hno (hkind ▸ hmutable)))
  | mark run =>
      obtain ⟨-, hview, hstrings⟩ := orderly_of_mark orderly run
      refine ⟨fun h text ho => ?_, fun g h text hg ho => ?_, fun hash bucket hbucket => ?_⟩
      · rw [hstrings]
        exact interned.listed h text (hview h ▸ ho)
      · exact interned.distinct g h text (hview g ▸ hg) (hview h ▸ ho)
      · obtain ⟨hne, hnodup, hentries⟩ := interned.entries hash bucket (hstrings ▸ hbucket)
        exact ⟨hne, hnodup, fun h hh => by simpa only [hview] using hentries h hh⟩
  | collect run => exact (collected_of_ok orderly run).interned interned

/-- The intern table is in order after every history in which all strings are interned. -/
theorem Arises.interned (arises : heap.Arises fun o => o.kind ≠ .string) : heap.Interned := by
  induction arises with
  | empty policy => exact (valid_empty policy).toInterned
  | step harises hstep ih => exact hstep.interned harises.orderly ih fun _ => id

/-! ### Collections -/

/-- Every child of every object lies in range. -/
def ChildrenInRange (heap : Heap) : Prop :=
  ∀ g o, heap.object? g = some o → ∀ c, .object c ∈ o.children → heap.InRange c

/-- A heap does not stray from roots in range if all children lie in range. -/
theorem Orderly.not_strays (orderly : heap.Orderly) (inRange : ∀ g ∈ roots, heap.InRange g)
    (fields : heap.ChildrenInRange) : ¬ heap.Strays (roots ++ heap.gray) := by
  rintro ⟨h, hreach, hfar⟩
  refine hfar (hreach.induct (fun g hg => ?_) fun g o _ ho c hc => fields g o ho c hc)
  rcases List.mem_append.mp hg with hg | hg
  · exact inRange g hg
  · exact (orderly.gray_live g hg).inRange

/-- A collection keeps exactly the live objects that can be reached from its roots or from an
object that is marked already. The survivors keep their handles and their contents, and no mark
is left. It only fails when the next threshold would leave the machine word. -/
theorem collect_exact (arises : heap.Arises fun _ => True)
    (inRange : ∀ g ∈ roots, heap.InRange g) (fields : heap.ChildrenInRange) :
    (∃ heap', collect roots heap = .ok () heap' ∧
      (∀ h o, heap'.object? h = some o ↔ heap.object? h = some o ∧
        ∃ g, (g ∈ roots ∨ heap.marksSlot g) ∧ heap.Reaches [g] h) ∧
      (∀ h, heap'.marksSlot h = false) ∧ heap'.gray = []) ∨
    (∃ heap', collect roots heap = .error .overflow heap' ∧
      maxWord < heap'.bytes * heap'.policy.growth) := by
  have orderly := arises.orderly
  rcases collect_cases orderly roots with ⟨heap', hrun, collected⟩ | hover | ⟨-, -, hstray⟩
  · refine .inl ⟨heap', hrun, fun h o => ?_, fun h => ?_, collected.gray⟩
    · rw [collected.object?_iff, reaches_iff_exists]
      simp only [List.mem_append, orderly.gray_iff]
    · rw [Bool.eq_false_iff]
      intro hmarked
      have := (collected.orderly.gray_iff h).mpr hmarked
      rw [collected.gray] at this
      cases this
  · exact .inr hover
  · exact absurd hstray (orderly.not_strays inRange fields)

/-- A heap in which a cell and a function refer to each other, and a closure is marked. -/
def knot : Heap :=
  { slots := #[
      { object := some (.cell (.closed (.object ⟨1⟩))), size := 96 },
      { object := some (.function { chunk := { constants := #[.object ⟨0⟩] } }), size := 112 },
      { object := some (.closure { function := ⟨1⟩ }), marked := true, size := 96 }]
    bytes := 304
    threshold := 1048576
    gray := [⟨2⟩]
    policy := {} }

/-- The knot is tied by allocating a cell, a function and a closure, and by closing the cell. -/
theorem arises_knot : Arises (fun _ => True) knot := by
  have cell : Arises (fun _ => True) _ := (Arises.empty {}).step (.allocate trivial
    (show allocate (.cell (.opened 0)) [] (empty {}) = .ok ⟨0⟩ _ from rfl))
  have function := cell.step (.allocate trivial
    (show allocate (.function { chunk := { constants := #[.object ⟨0⟩] } }) [⟨0⟩] _ =
      .ok ⟨1⟩ _ from rfl))
  have tied := function.step (.setCell
    (show setCell ⟨0⟩ (.closed (.object ⟨1⟩)) _ = .ok () _ from rfl))
  have closure := tied.step (.allocate trivial
    (show allocate (.closure { function := ⟨1⟩ }) [⟨0⟩] _ = .ok ⟨2⟩ _ from rfl))
  exact closure.step (.mark (show mark ⟨2⟩ _ = .ok () knot from rfl))

/-- The knot outlives a collection whose only root is its cell, and so does the closure. -/
theorem collect_exact_knot : Arises (fun _ => True) knot ∧
    (∀ g ∈ [(⟨0⟩ : Handle)], knot.InRange g) ∧ knot.ChildrenInRange ∧
    ((∃ heap', collect [⟨0⟩] knot = .ok () heap' ∧
      (∀ h o, heap'.object? h = some o ↔ knot.object? h = some o ∧
        ∃ g, (g ∈ [(⟨0⟩ : Handle)] ∨ knot.marksSlot g) ∧ knot.Reaches [g] h) ∧
      (∀ h, heap'.marksSlot h = false) ∧ heap'.gray = []) ∨
    (∃ heap', collect [⟨0⟩] knot = .error .overflow heap' ∧
      maxWord < heap'.bytes * heap'.policy.growth)) := by
  have roots : ∀ g ∈ [(⟨0⟩ : Handle)], knot.InRange g := by
    simp [InRange, knot]
  have fields : knot.ChildrenInRange := by
    rintro ⟨i⟩ o ho c hc
    rcases i with _ | _ | _ | i
    iterate 3
      obtain rfl := Option.some.inj ho
      simp_all [Object.children, InRange, knot]
    simp [object?, knot] at ho
  exact ⟨arises_knot, roots, fields, collect_exact arises_knot roots fields⟩

end Lox.Heap
