import Lox.Proofs.Heap.Collection

/-!
# Allocation and interning

An allocation has two parts. First the heap may be *pruned*, that is, collected with the roots
at hand; then the object is *placed* into a slot that is free by then. An object that the
roots reach before the allocation is therefore untouched by it.

Interning finds the one live string with a given text, if there is one. This rests on the
invariant of the intern table: it lists every live string under its fingerprint, and no two
live strings have the same text. The table is weak, so the invariant has to survive the
collection that runs between a failed look-up and the entry of the new string.

## Main results

* `Heap.Interned`, `Heap.Valid` — the invariants of the intern table and of the whole heap.
* `allocate_spec`, `intern_spec` — allocations succeed or overflow.
* `Valid.replace` — replacing an object keeps a heap valid.
-/

namespace Lox.Heap

variable {heap heap' start mid : Heap} {h g : Handle} {roots : List Handle} {o : Object}
  {text : String}

/-! ### The intern table -/

/-- The invariant of the intern table. -/
structure Interned (heap : Heap) : Prop where
  listed : ∀ h text, heap.object? h = some (.string text) →
    ∃ bucket, heap.strings[fingerprint text]? = some bucket ∧ h ∈ bucket
  distinct : ∀ g h text, heap.object? g = some (.string text) →
    heap.object? h = some (.string text) → g = h
  entries : ∀ (hash : UInt64) (bucket : List Handle), heap.strings[hash]? = some bucket →
    bucket ≠ [] ∧ bucket.Nodup ∧
      ∀ h ∈ bucket, ∃ text, heap.object? h = some (.string text) ∧ fingerprint text = hash

/-- A heap is **valid** when its arena and its intern table are in order. -/
structure Valid (heap : Heap) : Prop extends Sound heap, Interned heap

/-- An empty heap is valid. -/
theorem valid_empty (policy : Policy) : (empty policy).Valid := by
  have hnone : ∀ h, (empty policy).object? h = none := fun h => by simp [empty, object?]
  refine { sound_empty policy with listed := ?_, distinct := ?_, entries := ?_ }
  · intro h text ho
    simp [hnone] at ho
  · intro g h text ho
    simp [hnone] at ho
  · intro hash bucket hbucket
    simp [empty] at hbucket

/-- The table finds every live string. -/
theorem Interned.findInterned?_eq (interned : heap.Interned)
    (ho : heap.object? h = some (.string text)) :
    heap.findInterned? text (fingerprint text) = some h := by
  obtain ⟨bucket, hbucket, hmem⟩ := interned.listed h text ho
  have hsome : (bucket.find? (heap.holdsText text)).isSome := by
    rw [List.find?_isSome]
    exact ⟨h, hmem, by simp [holdsText, ho]⟩
  obtain ⟨g, hg⟩ := Option.isSome_iff_exists.mp hsome
  have hfound : heap.findInterned? text (fingerprint text) = some g := by
    simp only [findInterned?, hbucket, hg]
  rw [hfound, interned.distinct g h text (object?_of_findInterned? hfound) ho]

/-- A text is found exactly when a live string has it. -/
theorem Interned.findInterned?_eq_some_iff (interned : heap.Interned) :
    heap.findInterned? text (fingerprint text) = some h ↔
      heap.object? h = some (.string text) :=
  ⟨object?_of_findInterned?, interned.findInterned?_eq⟩

/-- Without a live string of its text, nothing is found. -/
theorem Interned.findInterned?_eq_none_iff (interned : heap.Interned) :
    heap.findInterned? text (fingerprint text) = none ↔
      ∀ h, heap.object? h ≠ some (.string text) := by
  rw [Option.eq_none_iff_forall_ne_some]
  exact forall_congr' fun h => not_congr interned.findInterned?_eq_some_iff

/-- A collection keeps the intern table in order. -/
theorem Collected.interned (collected : Collected start roots heap) (interned : start.Interned) :
    heap.Interned := by
  refine ⟨fun h text ho => ?_, fun g h text hg ho => ?_, fun hash bucket hbucket => ?_⟩
  · obtain ⟨bucket, hbucket, hmem⟩ :=
      interned.listed h text ((collected.object?_iff h _).mp ho).1
    have hkept : h ∈ bucket.filter heap.contains :=
      List.mem_filter.mpr ⟨hmem, contains_iff.mpr ⟨_, ho⟩⟩
    exact ⟨_, (collected.strings_iff _ _).mpr ⟨bucket, hbucket, rfl, List.ne_nil_of_mem hkept⟩,
      hkept⟩
  · exact interned.distinct g h text ((collected.object?_iff g _).mp hg).1
      ((collected.object?_iff h _).mp ho).1
  · obtain ⟨old, hold, rfl, hne⟩ := (collected.strings_iff hash bucket).mp hbucket
    obtain ⟨-, hnodup, hentries⟩ := interned.entries hash old hold
    refine ⟨hne, hnodup.filter _, fun h hh => ?_⟩
    obtain ⟨hmem, hcontains⟩ := List.mem_filter.mp hh
    obtain ⟨text, htext, hhash⟩ := hentries h hmem
    obtain ⟨o, ho⟩ := contains_iff.mp hcontains
    obtain rfl := Option.some.inj (((collected.object?_iff h o).mp ho).1.symm.trans htext)
    exact ⟨text, ho, hhash⟩

/-! ### Pruning -/

/-- A collection leaves closures with their cells. -/
theorem Collected.wired (collected : Collected start roots heap) (wired : start.Wired) :
    heap.Wired := by
  intro h c hc g hg
  obtain ⟨hold, hreach⟩ := (collected.object?_iff h _).mp hc
  obtain ⟨state, hstate⟩ := wired h c hold g hg
  have hchild : (.object g : Value) ∈ (Object.closure c).children := by
    simp [Object.children, Array.mem_toList_iff.mp hg]
  exact ⟨state, (collected.object?_iff g _).mpr ⟨hstate, hreach.child hold hchild⟩⟩

/-- A heap after at most a collection with given roots. -/
structure Pruned (start : Heap) (roots : List Handle) (heap : Heap) : Prop where
  old : ∀ h o, heap.object? h = some o → start.object? h = some o
  kept : ∀ h o, start.object? h = some o → start.Reaches roots h → heap.object? h = some o
  orderly : heap.Orderly
  closed : start.Closed → heap.Closed
  wired : start.Wired → heap.Wired
  interned : start.Interned → heap.Interned
  gray : ∀ h ∈ heap.gray, h ∈ start.gray
  size : heap.slots.size = start.slots.size
  policy : heap.policy = start.policy

/-- A heap that is not collected is pruned of nothing, whatever it charges. -/
theorem Pruned.charge (orderly : start.Orderly) (roots : List Handle) (size : Nat) :
    Pruned start roots (start.charge size) :=
  ⟨fun _ _ ho => ho, fun _ _ ho _ => ho, orderly.congr rfl rfl rfl rfl, id, id,
    fun interned => ⟨interned.listed, interned.distinct, interned.entries⟩, fun _ => id, rfl, rfl⟩

/-- A collected heap is pruned. -/
theorem Collected.pruned (collected : Collected start roots heap) : Pruned start roots heap :=
  ⟨fun h o ho => ((collected.object?_iff h o).mp ho).1,
    fun h o ho hr => (collected.object?_iff h o).mpr ⟨ho, hr.mono (by simp +contextual)⟩,
    collected.orderly, fun closed => (collected.sound closed).closed,
    collected.wired, collected.interned,
    by simp [collected.gray], collected.size, collected.policy⟩

/-- What the roots reach stays live. -/
theorem Pruned.live (pruned : Pruned start roots heap) (live : start.Live h)
    (reaches : start.Reaches roots h) : heap.Live h := by
  obtain ⟨o, ho⟩ := live
  exact ⟨o, pruned.kept h o ho reaches⟩

/-- What the roots reach is still reached in the pruned heap. -/
theorem Pruned.reaches (pruned : Pruned start roots heap) (reaches : start.Reaches roots h) :
    heap.Reaches roots h := by
  induction reaches with
  | root hmem => exact .root hmem
  | child hreach ho hchild ih => exact .child ih (pruned.kept _ _ ho hreach) hchild

/-- A heap may be pruned twice. -/
theorem Pruned.trans (first : Pruned start roots mid) (second : Pruned mid roots heap) :
    Pruned start roots heap :=
  ⟨fun h o ho => first.old h o (second.old h o ho),
    fun h o ho hr => second.kept h o (first.kept h o ho hr) (first.reaches hr),
    second.orderly, fun closed => second.closed (first.closed closed),
    fun wired => second.wired (first.wired wired),
    fun interned => second.interned (first.interned interned),
    fun h hh => first.gray h (second.gray h hh), second.size.trans first.size,
    second.policy.trans first.policy⟩

/-! ### Placing -/

/-- A heap after an object has been put into a free slot. -/
structure Placed (mid : Heap) (object : Object) (h : Handle) (heap : Heap) : Prop where
  fresh : mid.object? h = none
  object?_eq : ∀ g, heap.object? g = if g = h then some object else mid.object? g
  strings : heap.strings = mid.strings
  orderly : heap.Orderly
  gray : heap.gray = mid.gray
  size : mid.slots.size ≤ heap.slots.size
  policy : heap.policy = mid.policy

/-- The new object is behind its handle. -/
theorem Placed.object?_self (placed : Placed mid o h heap) : heap.object? h = some o := by
  simp [placed.object?_eq]

/-- Objects that were there before are untouched. -/
theorem Placed.object?_of_object? (placed : Placed mid o h heap) {old : Object}
    (ho : mid.object? g = some old) : heap.object? g = some old := by
  have hne : g ≠ h := by
    rintro rfl
    simp [placed.fresh] at ho
  simp [placed.object?_eq, hne, ho]

/-- A sound heap stays sound when the children of the new object are live. -/
theorem Placed.sound (placed : Placed mid o h heap) (closed : mid.Closed)
    (children : ∀ c, .object c ∈ o.children → mid.Live c) : heap.Sound := by
  have hlive : ∀ g, mid.Live g → heap.Live g := fun g ⟨old, hold⟩ =>
    ⟨old, placed.object?_of_object? hold⟩
  refine ⟨placed.orderly, fun f old hf c hc => hlive c ?_⟩
  rw [placed.object?_eq] at hf
  split at hf
  · obtain rfl := Option.some.inj hf
    exact children c hc
  · exact closed f old hf c hc

/-- Placing anything but a string leaves the intern table in order. -/
theorem Placed.interned (placed : Placed mid o h heap) (interned : mid.Interned)
    (other : ∀ text, o ≠ .string text) : heap.Interned := by
  have hback : ∀ g text, heap.object? g = some (.string text) →
      mid.object? g = some (.string text) := fun g text hg => by
    rw [placed.object?_eq] at hg
    split at hg
    · exact absurd (Option.some.inj hg) (other text)
    · exact hg
  refine ⟨fun g text hg => ?_, fun f g text hf hg => ?_, fun hash bucket hbucket => ?_⟩
  · rw [placed.strings]
    exact interned.listed g text (hback g text hg)
  · exact interned.distinct f g text (hback f text hf) (hback g text hg)
  · rw [placed.strings] at hbucket
    obtain ⟨hne, hnodup, hentries⟩ := interned.entries hash bucket hbucket
    refine ⟨hne, hnodup, fun g hg => ?_⟩
    obtain ⟨text, htext, hhash⟩ := hentries g hg
    exact ⟨text, placed.object?_of_object? htext, hhash⟩

/-- Filling a free slot keeps the arena in order. -/
theorem placed_of_view {free : List Nat} {slots : Array Slot} (size : Nat)
    (orderly : mid.Orderly) (view : heap = { mid with slots, free })
    (fresh : mid.object? h = none) (unmarked : mid.marksSlot h = false)
    (slot : ∀ g : Handle, slots[g.index]? =
      if g = h then some { object := some o, size } else mid.slots[g.index]?)
    (nodup : free.Nodup) (subset : ∀ i ∈ free, i ∈ mid.free ∧ i ≠ h.index) :
    Placed mid o h heap := by
  have hview : ∀ g, heap.object? g = if g = h then some o else mid.object? g := fun g => by
    rw [view]
    simp only [object?, slot g]
    by_cases heq : g = h <;> simp [heq]
  have hmarks : ∀ g, heap.marksSlot g = mid.marksSlot g := fun g => by
    by_cases heq : g = h
    · rw [heq, unmarked, view]
      simp [marksSlot, slot h]
    · rw [view]
      simp [marksSlot, slot g, heq]
  have hgray : heap.gray = mid.gray := by rw [view]
  have hsize : mid.slots.size ≤ slots.size := by
    by_contra hshort
    have hlt : slots.size < mid.slots.size := by omega
    have hslot := slot ⟨slots.size⟩
    rw [Array.getElem?_eq_none (Nat.le_refl _), Array.getElem?_eq_getElem hlt] at hslot
    split at hslot <;> cases hslot
  refine ⟨fresh, hview, by rw [view], ⟨by rw [view]; exact orderly.wide,
    by rw [view]; exact nodup, fun i hi => ?_, fun g => ?_, fun g hg => ?_⟩,
      hgray, by rw [view]; exact hsize, by rw [view]⟩
  · obtain ⟨hmem, hne⟩ := subset i (by rw [view] at hi; exact hi)
    obtain ⟨hrange, hdead⟩ := orderly.free_empty i hmem
    have hne' : (⟨i⟩ : Handle) ≠ h := fun heq => hne (by rw [← heq])
    have hslot := slot ⟨i⟩
    rw [if_neg hne', Array.getElem?_eq_getElem hrange] at hslot
    refine ⟨by rw [view]; exact (Array.getElem?_eq_some_iff.mp hslot).1, ?_⟩
    rintro ⟨old, hold⟩
    rw [hview, if_neg hne'] at hold
    exact hdead ⟨old, hold⟩
  · rw [hgray, hmarks]
    exact orderly.gray_iff g
  · obtain ⟨old, hold⟩ := orderly.gray_live g (hgray ▸ hg)
    have hne : g ≠ h := by
      rintro rfl
      simp [fresh] at hold
    exact ⟨old, by simp [hview, hne, hold]⟩

/-- An object finds a place, and all others stay where they are. -/
theorem place_spec (orderly : mid.Orderly) (o : Object) (size : Nat) :
    ∃ h heap, place o size mid = .ok h heap ∧ Placed mid o h heap := by
  have hunmarked : ∀ h, ¬ mid.Live h → mid.marksSlot h = false := fun h hdead => by
    by_contra hmarked
    rw [Bool.not_eq_false] at hmarked
    exact hdead (orderly.live_of_marked hmarked)
  cases hfree : mid.free with
  | nil =>
      have hdead : mid.object? ⟨mid.slots.size⟩ = none := by simp [object?]
      refine ⟨⟨mid.slots.size⟩,
        { mid with slots := mid.slots.push { object := some o, size }, free := [] },
        by simp only [place, hfree, handle_of_wide orderly.wide], ?_⟩
      refine placed_of_view size orderly rfl hdead (hunmarked _ (by simp [Live, hdead]))
        (fun g => ?_) List.nodup_nil (by simp)
      rw [Array.getElem?_push]
      have heq : g = ⟨mid.slots.size⟩ ↔ g.index = mid.slots.size := by cases g; simp
      simp only [heq]
  | cons i free =>
      obtain ⟨hrange, hdead⟩ := orderly.free_empty i (by simp [hfree])
      have hnodup := orderly.free_nodup
      rw [hfree, List.nodup_cons] at hnodup
      have hnone : mid.object? ⟨i⟩ = none := by
        rw [Option.eq_none_iff_forall_ne_some]
        exact fun old hold => hdead ⟨old, hold⟩
      refine ⟨⟨i⟩, { mid with slots := mid.slots.set! i { object := some o, size }, free },
        by simp only [place, hfree], ?_⟩
      refine placed_of_view size orderly rfl hnone (hunmarked _ hdead) (fun g => ?_) hnodup.2
        (fun j hj => ?_)
      · have heq : g = ⟨i⟩ ↔ i = g.index := by cases g; simp [eq_comm]
        have hlt : i < mid.slots.size := hrange
        simp only [heq, Array.set!_eq_setIfInBounds, Array.getElem?_setIfInBounds]
        split <;> simp_all
      · rw [hfree]
        refine ⟨List.mem_cons_of_mem _ hj, ?_⟩
        rintro rfl
        exact hnodup.1 hj

/-! ### Operations that allocate -/

/-- The outcome of an allocation with given roots: the heap is pruned, and then the object is
placed. -/
def Allocated (start : Heap) (roots : List Handle) (object : Object) (h : Handle)
    (heap : Heap) : Prop :=
  ∃ mid, Pruned start roots mid ∧ Placed mid object h heap

/-- An allocation succeeds, unless a collection overflows or the heap strays. -/
theorem allocate_cases (orderly : heap.Orderly) (o : Object) (roots : List Handle) :
    (∃ h heap', allocate o roots heap = .ok h heap' ∧ Allocated heap roots o h heap') ∨
    (∃ heap', allocate o roots heap = .error .overflow heap' ∧ heap'.Overfull) ∨
    (∃ heap', allocate o roots heap = .error .outOfRange heap' ∧
      heap.Strays (roots ++ heap.gray)) := by
  have hcharged := Pruned.charge orderly roots o.size
  have hplace : ∀ mid, Pruned heap roots mid → ∃ h heap', place o o.size mid = .ok h heap' ∧
      Allocated heap roots o h heap' := fun mid hmid => by
    obtain ⟨h, heap', hrun, hplaced⟩ := place_spec hmid.orderly o o.size
    exact ⟨h, heap', hrun, mid, hmid, hplaced⟩
  unfold allocate
  rw [bind_of_ok (modify_apply _ heap), bind_of_ok (get_apply _)]
  by_cases due : (heap.charge o.size).isDue
  · rw [if_pos due]
    rcases collect_cases hcharged.orderly roots with
      ⟨mid, hok, hmid⟩ | ⟨heap', herror, hover⟩ | ⟨heap', herror, hstray⟩
    · rw [bind_of_ok hok]
      exact .inl (hplace mid (hcharged.trans hmid.pruned))
    · exact .inr (.inl ⟨heap', bind_of_error herror, hover⟩)
    · obtain ⟨h, hreach, hfar⟩ := hstray
      exact .inr (.inr ⟨heap', bind_of_error herror, h, hreach.congr fun _ => rfl, hfar⟩)
  · rw [if_neg due]
    exact .inl (hplace _ hcharged)

/-- An allocation with live roots succeeds or overflows. -/
theorem allocate_spec (sound : heap.Sound) (live : ∀ g ∈ roots, heap.Live g) (o : Object) :
    (∃ h heap', allocate o roots heap = .ok h heap' ∧ Allocated heap roots o h heap') ∨
    (∃ heap', allocate o roots heap = .error .overflow heap' ∧ heap'.Overfull) := by
  rcases allocate_cases sound.toOrderly o roots with hok | hover | ⟨-, -, hstray⟩
  · exact .inl hok
  · exact .inr hover
  · refine absurd hstray (sound.not_strays fun g hg => ?_)
    rcases List.mem_append.mp hg with hg | hg
    · exact live g hg
    · exact sound.gray_live g hg

/-- What the roots reach is untouched by an allocation. -/
theorem Allocated.kept (allocated : Allocated start roots o h heap) {old : Object}
    (ho : start.object? g = some old) (reaches : start.Reaches roots g) :
    heap.object? g = some old := by
  obtain ⟨mid, hmid, hplaced⟩ := allocated
  exact hplaced.object?_of_object? (hmid.kept g old ho reaches)

/-- After an allocation there is the new object and some of the old ones. -/
theorem Allocated.old (allocated : Allocated start roots o h heap) {found : Object}
    (ho : heap.object? g = some found) :
    (g = h ∧ found = o) ∨ (g ≠ h ∧ start.object? g = some found) := by
  obtain ⟨mid, hmid, hplaced⟩ := allocated
  rw [hplaced.object?_eq] at ho
  split at ho
  · rename_i heq
    exact .inl ⟨heq, (Option.some.inj ho).symm⟩
  · rename_i hne
    exact .inr ⟨hne, hmid.old g found ho⟩

/-- The new handle is none of the live ones that the roots reach. -/
theorem Allocated.fresh (allocated : Allocated start roots o h heap) (live : start.Live g)
    (reaches : start.Reaches roots g) : g ≠ h := by
  obtain ⟨mid, hmid, hplaced⟩ := allocated
  rintro rfl
  obtain ⟨old, hold⟩ := hmid.live live reaches
  simp [hplaced.fresh] at hold

/-- The new object is behind its handle. -/
theorem Allocated.object?_self (allocated : Allocated start roots o h heap) :
    heap.object? h = some o := by
  obtain ⟨mid, -, hplaced⟩ := allocated
  exact hplaced.object?_self

/-- An allocation leaves the arena in order. -/
theorem Allocated.orderly (allocated : Allocated start roots o h heap) : heap.Orderly := by
  obtain ⟨mid, -, hplaced⟩ := allocated
  exact hplaced.orderly

/-- Allocating anything but a string keeps the intern table in order. -/
theorem Allocated.interned (allocated : Allocated start roots o h heap)
    (interned : start.Interned) (other : ∀ text, o ≠ .string text) : heap.Interned := by
  obtain ⟨mid, hmid, hplaced⟩ := allocated
  exact hplaced.interned (hmid.interned interned) other

/-- Allocating anything but a string keeps a heap valid, if live roots reach the children. -/
theorem Allocated.valid (allocated : Allocated start roots o h heap) (valid : start.Valid)
    (other : ∀ text, o ≠ .string text) (live : ∀ g ∈ roots, start.Live g)
    (children : ∀ c, .object c ∈ o.children → start.Reaches roots c) : heap.Valid := by
  have ⟨mid, hmid, hplaced⟩ := allocated
  exact { hplaced.sound (hmid.closed valid.closed) fun c hc =>
      hmid.live (valid.closed.live_of_reaches live (children c hc)) (children c hc) with
    toInterned := allocated.interned valid.toInterned other }

/-- The setting of the collector never changes. -/
theorem Allocated.policy (allocated : Allocated start roots o h heap) :
    heap.policy = start.policy := by
  obtain ⟨mid, hmid, hplaced⟩ := allocated
  exact hplaced.policy.trans hmid.policy

/-! ### Interning -/

/-- The table after a new string has been entered. -/
theorem getElem?_enlist (hash other : UInt64) (h : Handle) (heap : Heap) :
    (enlist hash h heap).strings[other]? =
      if other = hash then some ((heap.strings[hash]?).getD [] ++ [h])
      else heap.strings[other]? := by
  simp only [enlist, Std.TreeMap.getElem?_alter, Std.LawfulEqCmp.compare_eq_iff_eq]
  by_cases heq : other = hash
  · simp [heq]
  · simp [heq, Ne.symm heq]

/-- Entering a new string with a text that no other live string has puts the table in order. -/
theorem Placed.interned_enlist (placed : Placed mid (.string text) h heap)
    (interned : mid.Interned) (unique : ∀ g, mid.object? g ≠ some (.string text)) :
    (enlist (fingerprint text) h heap).Interned := by
  have hview : ∀ g, (enlist (fingerprint text) h heap).object? g =
      if g = h then some (.string text) else mid.object? g := placed.object?_eq
  have hstrings : ∀ hash : UInt64, (enlist (fingerprint text) h heap).strings[hash]? =
      if hash = fingerprint text then some ((mid.strings[fingerprint text]?).getD [] ++ [h])
      else mid.strings[hash]? := fun hash => by
    rw [getElem?_enlist, placed.strings]
  have hnew : ∀ (hash : UInt64) (bucket : List Handle), mid.strings[hash]? = some bucket →
      h ∉ bucket := fun hash bucket hbucket hmem => by
    obtain ⟨other, hother, -⟩ := (interned.entries hash bucket hbucket).2.2 h hmem
    rw [placed.fresh] at hother
    cases hother
  refine ⟨fun g other hg => ?_, fun f g other hf hg => ?_, fun hash bucket hbucket => ?_⟩
  · rw [hview] at hg
    rw [hstrings]
    split at hg
    · rename_i heq
      obtain rfl : text = other := by simpa using hg
      exact ⟨_, if_pos rfl, by simp [heq]⟩
    · obtain ⟨bucket, hbucket, hmem⟩ := interned.listed g other hg
      by_cases hhash : fingerprint other = fingerprint text
      · rw [hhash] at hbucket
        exact ⟨_, if_pos hhash, by simp [hbucket, hmem]⟩
      · exact ⟨bucket, by rw [if_neg hhash, hbucket], hmem⟩
  · rw [hview] at hf hg
    split at hf <;> split at hg
    · simp_all
    · obtain rfl : text = other := by simpa using hf
      exact absurd hg (unique g)
    · obtain rfl : text = other := by simpa using hg
      exact absurd hf (unique f)
    · exact interned.distinct f g other hf hg
  · rw [hstrings] at hbucket
    split at hbucket
    · rename_i heq
      obtain rfl := Option.some.inj hbucket
      refine ⟨by simp, ?_, fun g hg => ?_⟩
      · cases hold : mid.strings[fingerprint text]? with
        | none => simp
        | some old =>
            obtain ⟨-, hnodup, -⟩ := interned.entries _ old hold
            have hmem := hnew _ old hold
            simp only [Option.getD_some]
            exact List.nodup_append.mpr ⟨hnodup, by simp, by rintro a ha b hb rfl; simp_all⟩
      · rcases List.mem_append.mp hg with hg | hg
        · cases hold : mid.strings[fingerprint text]? with
          | none => simp [hold] at hg
          | some old =>
              rw [hold, Option.getD_some] at hg
              obtain ⟨other, hother, hhash⟩ := (interned.entries _ old hold).2.2 g hg
              have hne : g ≠ h := fun heq => hnew _ old hold (heq ▸ hg)
              exact ⟨other, by rw [hview, if_neg hne, hother], hhash.trans heq.symm⟩
        · obtain rfl := List.mem_singleton.mp hg
          exact ⟨text, by rw [hview, if_pos rfl], heq.symm⟩
    · obtain ⟨hne, hnodup, hentries⟩ := interned.entries hash bucket hbucket
      refine ⟨hne, hnodup, fun g hg => ?_⟩
      obtain ⟨other, hother, hhash⟩ := hentries g hg
      have hne : g ≠ h := fun heq => hnew _ bucket hbucket (heq ▸ hg)
      exact ⟨other, by rw [hview, if_neg hne, hother], hhash⟩

/-- The outcome of interning a text with given roots: a string that is found is given back in
the same heap, and otherwise one is allocated and entered into the table. -/
inductive InternedAs (start : Heap) (roots : List Handle) (text : String) (h : Handle) :
    Heap → Prop
  | found : start.object? h = some (.string text) → InternedAs start roots text h start
  | made {heap : Heap} : start.findInterned? text (fingerprint text) = none →
      Allocated start roots (.string text) h heap →
        InternedAs start roots text h (enlist (fingerprint text) h heap)

/-- Interning succeeds, unless a collection overflows or the heap strays. -/
theorem intern_cases (orderly : heap.Orderly) (text : String) (roots : List Handle) :
    (∃ h heap', intern text roots heap = .ok h heap' ∧ InternedAs heap roots text h heap') ∨
    (∃ heap', intern text roots heap = .error .overflow heap' ∧ heap'.Overfull) ∨
    (∃ heap', intern text roots heap = .error .outOfRange heap' ∧
      heap.Strays (roots ++ heap.gray)) := by
  unfold intern
  rw [bind_of_ok (get_apply heap)]
  cases hfound : heap.findInterned? text (fingerprint text) with
  | some h => exact .inl ⟨h, heap, rfl, .found (object?_of_findInterned? hfound)⟩
  | none =>
      rcases allocate_cases orderly (.string text) roots with
        ⟨h, heap', hrun, hallocated⟩ | ⟨heap', herror, hover⟩ | ⟨heap', herror, hstray⟩
      · exact .inl ⟨h, _, bind_of_ok hrun, .made hfound hallocated⟩
      · exact .inr (.inl ⟨heap', bind_of_error herror, hover⟩)
      · exact .inr (.inr ⟨heap', bind_of_error herror, hstray⟩)

/-- Interning with live roots succeeds or overflows. -/
theorem intern_spec (valid : heap.Valid) (live : ∀ g ∈ roots, heap.Live g) (text : String) :
    (∃ h heap', intern text roots heap = .ok h heap' ∧ InternedAs heap roots text h heap') ∨
    (∃ heap', intern text roots heap = .error .overflow heap' ∧ heap'.Overfull) := by
  rcases intern_cases valid.toOrderly text roots with
    hok | hover | ⟨-, -, hstray⟩
  · exact .inl hok
  · exact .inr hover
  · refine absurd hstray (valid.not_strays fun g hg => ?_)
    rcases List.mem_append.mp hg with hg | hg
    · exact live g hg
    · exact valid.gray_live g hg

/-- Interning keeps the arena in order. -/
theorem InternedAs.orderly (made : InternedAs start roots text h heap) (orderly : start.Orderly) :
    heap.Orderly := by
  cases made with
  | found => exact orderly
  | made _ hallocated =>
      obtain ⟨mid, -, hplaced⟩ := hallocated
      exact hplaced.orderly.congr rfl rfl rfl rfl

/-- Interning keeps the intern table in order. -/
theorem InternedAs.interned (made : InternedAs start roots text h heap)
    (interned : start.Interned) : heap.Interned := by
  cases made with
  | found => exact interned
  | made hnone hallocated =>
      obtain ⟨mid, hmid, hplaced⟩ := hallocated
      exact hplaced.interned_enlist (hmid.interned interned) fun g hg =>
        interned.findInterned?_eq_none_iff.mp hnone g (hmid.old g _ hg)

/-- Interning keeps a heap valid. -/
theorem InternedAs.valid (made : InternedAs start roots text h heap) (valid : start.Valid) :
    heap.Valid := by
  refine { made.orderly valid.toOrderly, made.interned valid.toInterned with closed := ?_ }
  cases made with
  | found => exact valid.closed
  | made hnone hallocated =>
      obtain ⟨mid, hmid, hplaced⟩ := hallocated
      exact ((hplaced.sound (hmid.closed valid.closed) (by simp [Object.children])).congr
        rfl rfl rfl rfl).closed

/-- The interned string has its text. -/
theorem InternedAs.object?_self (interned : InternedAs start roots text h heap) :
    heap.object? h = some (.string text) := by
  cases interned with
  | found ho => exact ho
  | made _ hallocated => exact hallocated.object?_self

/-- What the roots reach is untouched by interning. -/
theorem InternedAs.kept (interned : InternedAs start roots text h heap) {old : Object}
    (ho : start.object? g = some old) (reaches : start.Reaches roots g) :
    heap.object? g = some old := by
  cases interned with
  | found => exact ho
  | made _ hallocated => exact hallocated.kept ho reaches

/-- After interning there is the string and some of the old objects. -/
theorem InternedAs.old (interned : InternedAs start roots text h heap) {found : Object}
    (ho : heap.object? g = some found) :
    (g = h ∧ found = .string text) ∨ start.object? g = some found := by
  cases interned with
  | found => exact .inr ho
  | made _ hallocated => exact (hallocated.old ho).imp_right And.right

/-- The setting of the collector never changes. -/
theorem InternedAs.policy (interned : InternedAs start roots text h heap) :
    heap.policy = start.policy := by
  cases interned with
  | found => rfl
  | made _ hallocated => exact hallocated.policy

/-- Joining two strings is interning the joined text. -/
theorem concat_eq {left right : String} (hleft : heap.object? g = some (.string left))
    (hright : heap.object? h = some (.string right)) :
    concat g h roots heap = intern (left ++ right) roots heap := by
  unfold concat
  rw [string_eq_ok_iff.mpr hleft, string_eq_ok_iff.mpr hright]

/-- Allocating a closure of a function whose cells fit into a block is allocating an empty
closure with room for them. -/
theorem allocateClosure_eq {f : Function} (hf : heap.object? h = some (.function f))
    (fits : 4 * f.upvalueCount ≤ maxBlock) :
    allocateClosure h roots heap =
      allocate (.closure { function := h, room := f.upvalueCount }) roots heap := by
  unfold allocateClosure
  rw [function_eq_ok_iff.mpr hf]
  simp only [if_neg (Nat.not_lt.mpr fits)]

/-! ### Replacing -/

/-- Replacing an object does not change which handles are live. -/
theorem live_replace (live : heap.Live h) : (heap.replace h o).Live g ↔ heap.Live g := by
  unfold Live
  rw [object?_replace live]
  split
  · rename_i heq
    exact ⟨fun _ => heq ▸ live, fun _ => ⟨o, rfl⟩⟩
  · exact Iff.rfl

/-- Replacing an object leaves the free list and the marks as they are. -/
theorem Orderly.replace (orderly : heap.Orderly) (live : heap.Live h) (o : Object) :
    (heap.replace h o).Orderly := by
  have hmarks : ∀ g, (heap.replace h o).marksSlot g = heap.marksSlot g := fun g => by
    unfold marksSlot Heap.replace
    simp only [Array.getElem?_modify]
    cases heap.slots[g.index]? with
    | none => simp
    | some slot => by_cases heq : h.index = g.index <;> simp [heq]
  refine ⟨orderly.wide, orderly.free_nodup, fun i hi => ?_, fun g => ?_, fun g hg => ?_⟩
  · rw [live_replace live]
    have := orderly.free_empty i hi
    simpa [InRange, Heap.replace] using this
  · rw [hmarks]
    exact orderly.gray_iff g
  · exact (live_replace live).mpr (orderly.gray_live g hg)

/-- Replacing an object that is no string by another one leaves the intern table in order. -/
theorem Interned.replace (interned : heap.Interned) {old : Object}
    (hold : heap.object? h = some old) (before : ∀ text, old ≠ .string text)
    (after : ∀ text, o ≠ .string text) : (heap.replace h o).Interned := by
  have hstring : ∀ g text, (heap.replace h o).object? g = some (.string text) ↔
      heap.object? g = some (.string text) := fun g text => by
    rw [object?_replace ⟨old, hold⟩]
    split
    · rename_i heq
      subst heq
      simp only [hold, Option.some.injEq]
      exact ⟨fun heq => absurd heq (after text), fun heq => absurd heq (before text)⟩
    · exact Iff.rfl
  refine ⟨fun g text hg => ?_, fun f g text hf hg => ?_, fun hash bucket hbucket => ?_⟩
  · exact interned.listed g text ((hstring g text).mp hg)
  · exact interned.distinct f g text ((hstring f text).mp hf) ((hstring g text).mp hg)
  · obtain ⟨hne, hnodup, hentries⟩ := interned.entries hash bucket hbucket
    refine ⟨hne, hnodup, fun g hg => ?_⟩
    obtain ⟨text, htext, hhash⟩ := hentries g hg
    exact ⟨text, (hstring g text).mpr htext, hhash⟩

/-- A heap stays valid if neither the old object nor the new one is a string, and the children
of the new one are live. -/
theorem Valid.replace (valid : heap.Valid) {old : Object} (hold : heap.object? h = some old)
    (before : ∀ text, old ≠ .string text) (after : ∀ text, o ≠ .string text)
    (children : ∀ c, .object c ∈ o.children → heap.Live c) : (heap.replace h o).Valid := by
  have live : heap.Live h := ⟨old, hold⟩
  refine { valid.toOrderly.replace live o, valid.toInterned.replace hold before after with
    closed := fun f found hf c hc => (live_replace live).mpr ?_ }
  rw [object?_replace live] at hf
  split at hf
  · obtain rfl := Option.some.inj hf
    exact children c hc
  · exact valid.closed f found hf c hc

end Lox.Heap
