import Lox.Heap.Allocate

/-!
# The heap as a graph

`Heap.object?` views the arena as a partial map from handles to objects, and
`Object.children` gives the edges that leave an object. Every operation of the heap is
described here by an equation on that view, so that no later proof looks at slots.

## Main definitions

* `Heap.Live` — a handle that refers to an object.
* `Heap.Reaches` — what can be reached from given roots.
* `Heap.Closed` — no object refers to a freed one.
* `Heap.Wired` — closures have captured cells.
-/

namespace Lox.Heap

variable {heap : Heap} {h g : Handle} {o : Object}

/-! ### Live handles -/

/-- A handle is **live** when there is an object behind it. -/
def Live (heap : Heap) (h : Handle) : Prop := ∃ o, heap.object? h = some o

/-- A handle lies **in range** when the arena has a slot for it, free or not. -/
def InRange (heap : Heap) (h : Handle) : Prop := h.index < heap.slots.size

/-- The view of the arena, slot by slot. -/
theorem object?_eq_some_iff :
    heap.object? h = some o ↔ ∃ slot, heap.slots[h.index]? = some slot ∧ slot.object = some o := by
  unfold object?
  cases heap.slots[h.index]? <;> simp

/-- A live handle lies in range. -/
theorem Live.inRange (live : heap.Live h) : heap.InRange h := by
  obtain ⟨o, ho⟩ := live
  obtain ⟨slot, hslot, -⟩ := object?_eq_some_iff.mp ho
  exact (Array.getElem?_eq_some_iff.mp hslot).1

/-- The faulting look-up succeeds exactly on live handles. -/
theorem object_eq_ok_iff : heap.object h = .ok o ↔ heap.object? h = some o := by
  unfold object object?
  cases heap.slots[h.index]? with
  | none => simp
  | some slot => cases hslot : slot.object <;> simp [hslot]

/-- The look-up of a live handle. -/
theorem object_of_object? (ho : heap.object? h = some o) : heap.object h = .ok o :=
  object_eq_ok_iff.mpr ho

/-- The kind of a live object. -/
theorem kind_of_object? (ho : heap.object? h = some o) : heap.kind h = .ok o.kind := by
  simp [kind, object_of_object? ho, bind, Except.bind, pure, Except.pure]

/-- The text of a string. -/
theorem string_eq_ok_iff {text : String} :
    heap.string h = .ok text ↔ heap.object? h = some (.string text) := by
  rw [← object_eq_ok_iff]
  unfold string
  rcases heap.object h with f | o
  · simp [bind, Except.bind]
  · cases o <;> simp [bind, Except.bind, pure, Except.pure, throw, throwThe, MonadExceptOf.throw]

/-- A function and its handle. -/
theorem function_eq_ok_iff {f : Function} :
    heap.function h = .ok f ↔ heap.object? h = some (.function f) := by
  rw [← object_eq_ok_iff]
  unfold function
  rcases heap.object h with f | o
  · simp [bind, Except.bind]
  · cases o <;> simp [bind, Except.bind, pure, Except.pure, throw, throwThe, MonadExceptOf.throw]

/-- A host function and its handle. -/
theorem native_eq_ok_iff {n : Native} :
    heap.native h = .ok n ↔ heap.object? h = some (.native n) := by
  rw [← object_eq_ok_iff]
  unfold native
  rcases heap.object h with f | o
  · simp [bind, Except.bind]
  · cases o <;> simp [bind, Except.bind, pure, Except.pure, throw, throwThe, MonadExceptOf.throw]

/-- A closure and its handle. -/
theorem closure_eq_ok_iff {c : Closure} :
    heap.closure h = .ok c ↔ heap.object? h = some (.closure c) := by
  rw [← object_eq_ok_iff]
  unfold closure
  rcases heap.object h with f | o
  · simp [bind, Except.bind]
  · cases o <;> simp [bind, Except.bind, pure, Except.pure, throw, throwThe, MonadExceptOf.throw]

/-- A cell and its handle. -/
theorem cell_eq_ok_iff {c : Cell} :
    heap.cell h = .ok c ↔ heap.object? h = some (.cell c) := by
  rw [← object_eq_ok_iff]
  unfold cell
  rcases heap.object h with f | o
  · simp [bind, Except.bind]
  · cases o <;> simp [bind, Except.bind, pure, Except.pure, throw, throwThe, MonadExceptOf.throw]

/-- The interned string that a text leads to is a live string with that text. -/
theorem object?_of_findInterned? {text : String} {hash : UInt64}
    (found : heap.findInterned? text hash = some h) :
    heap.object? h = some (.string text) := by
  unfold findInterned? at found
  split at found
  · have holds := List.find?_some found
    unfold holdsText at holds
    split at holds
    · rename_i other hother
      rw [hother, of_decide_eq_true holds]
    · cases holds
  · cases found

/-! ### Reachability -/

/-- What can be reached from given roots along the edges of the graph. -/
inductive Reaches (heap : Heap) (roots : List Handle) : Handle → Prop
  | root {h : Handle} : h ∈ roots → Reaches heap roots h
  | child {g h : Handle} {o : Object} :
      Reaches heap roots g → heap.object? g = some o → .object h ∈ o.children →
        Reaches heap roots h

/-- More roots reach more. -/
theorem Reaches.mono {roots more : List Handle} (subset : ∀ g ∈ roots, g ∈ more)
    (reaches : heap.Reaches roots h) : heap.Reaches more h := by
  induction reaches with
  | root hmem => exact .root (subset _ hmem)
  | child _ ho hchild ih => exact .child ih ho hchild

/-- A set of handles that holds the roots and the children of its members holds all that can
be reached. -/
theorem Reaches.induct {roots : List Handle} {P : Handle → Prop} (root : ∀ g ∈ roots, P g)
    (child : ∀ g o, P g → heap.object? g = some o → ∀ c, .object c ∈ o.children → P c)
    (reaches : heap.Reaches roots h) : P h := by
  induction reaches with
  | root hmem => exact root _ hmem
  | child _ ho hchild ih => exact child _ _ ih ho _ hchild

/-- What is reached is a matter of the view. -/
theorem Reaches.congr {heap' : Heap} {roots : List Handle} (reaches : heap'.Reaches roots h)
    (view : ∀ g, heap'.object? g = heap.object? g) : heap.Reaches roots h := by
  induction reaches with
  | root hmem => exact .root hmem
  | child _ ho hchild ih => exact .child ih (view _ ▸ ho) hchild

/-- What several roots reach, one of them reaches. -/
theorem reaches_iff_exists {roots : List Handle} :
    heap.Reaches roots h ↔ ∃ g ∈ roots, heap.Reaches [g] h := by
  constructor
  · intro reaches
    induction reaches with
    | root hmem => exact ⟨_, hmem, .root (List.mem_singleton_self _)⟩
    | child _ ho hchild ih =>
        obtain ⟨g, hmem, hreach⟩ := ih
        exact ⟨g, hmem, hreach.child ho hchild⟩
  · rintro ⟨g, hmem, hreach⟩
    exact hreach.mono fun f hf => List.mem_singleton.mp hf ▸ hmem

/-- What two lists of roots reach, one of them reaches. -/
theorem reaches_append_iff {roots more : List Handle} : heap.Reaches (roots ++ more) g ↔
    heap.Reaches roots g ∨ heap.Reaches more g := by
  constructor
  · intro hreach
    obtain ⟨r, hr, hone⟩ := reaches_iff_exists.mp hreach
    have single : ∀ {rs : List Handle}, r ∈ rs → heap.Reaches rs g := fun hr =>
      reaches_iff_exists.mpr ⟨r, hr, hone⟩
    exact (List.mem_append.mp hr).imp single single
  · rintro (hreach | hreach)
    · exact hreach.mono fun _ => List.mem_append_left _
    · exact hreach.mono fun _ => List.mem_append_right _

/-- A heap is **closed** when all children of its objects are live. -/
def Closed (heap : Heap) : Prop :=
  ∀ g o, heap.object? g = some o → ∀ h, .object h ∈ o.children → heap.Live h

/-- A heap is **wired** when closures have captured nothing but cells. -/
def Wired (heap : Heap) : Prop :=
  ∀ h c, heap.object? h = some (.closure c) → ∀ g ∈ c.cells.toList,
    ∃ state, heap.object? g = some (.cell state)

/-- In a closed heap, all that live roots reach is live. -/
theorem Closed.live_of_reaches {roots : List Handle} (closed : heap.Closed)
    (live : ∀ g ∈ roots, heap.Live g) (reaches : heap.Reaches roots h) : heap.Live h :=
  reaches.induct live fun g o _ ho c hc => closed g o ho c hc

/-! ### Replacing an object -/

/-- Replacing an object changes the view at its handle only. -/
theorem object?_replace (live : heap.Live h) :
    (heap.replace h o).object? g = if g = h then some o else heap.object? g := by
  obtain ⟨old, hold⟩ := live
  obtain ⟨slot, hslot, -⟩ := object?_eq_some_iff.mp hold
  unfold object? replace
  simp only [Array.getElem?_modify]
  by_cases heq : g = h
  · subst heq
    simp [hslot]
  · have hne : h.index ≠ g.index := fun hi => heq (by cases g; cases h; simp_all)
    simp [hne, heq]

end Lox.Heap
