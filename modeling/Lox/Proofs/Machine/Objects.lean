import Lox.Proofs.Machine.Actions
import Lox.Proofs.Machine.OpenCells.Basic

/-!
# Objects in the hands of a poised machine

What a poised machine does with the objects that it reaches: it displays them, it reads and sets
globals, cells and captured variables, and it allocates new ones.

## Main results

* `Secure.display` — every value that is reached can be displayed.
* `Poised.setGlobal`, `Poised.readCell`, `Poised.writeCell` — variables.
* `Secure.allocate`, `Secure.allocateClosure`, `Poised.concat` — new objects.
* `Poised.openCell` — the open cell of a slot.
-/

namespace Lox

namespace Heap

variable {heap : Heap} {entries : List (Nat × Handle)} {building : Option Handle}
  {roots : List Handle} {h : Handle} {v : Value} {f : Function} {c : Closure}

/-- A function that is reached has typed code, with one line for each instruction. -/
theorem Secure.function (secure : heap.Secure entries building roots)
    (reaches : heap.Reaches roots h) (hf : heap.object? h = some (.function f)) :
    ∃ name constants, heap.Named f.name name ∧ heap.HoldsAll f.chunk.constants constants ∧
      (f.template name).Listed constants ∧ (f.template name).Lined constants ∧
      ∀ k ∈ constants, k.Typed := by
  cases secure.fine h _ reaches hf with
  | function hholds htyped hlined =>
      obtain ⟨name, constants, rfl, hnamed, hall⟩ := (holds_function_iff hf).mp hholds
      cases htyped with
      | function hlisted hconstants =>
          cases hlined with
          | function hlines _ =>
              exact ⟨name, constants, hnamed, hall, hlisted, hlines, hconstants⟩

/-- The closures that are reached have a function, and all the cells that it asks for. -/
theorem Secure.closure (secure : heap.Secure entries building roots)
    (reaches : heap.Reaches roots h) (hc : heap.object? h = some (.closure c)) :
    ∃ f, heap.object? c.function = some (.function f) ∧ heap.Reaches roots c.function ∧
      (∀ g ∈ c.cells.toList, ∃ state, heap.object? g = some (.cell state)) ∧
      (some h ≠ building → c.cells.size = f.upvalueCount) := by
  cases secure.fine h _ reaches hc with
  | closure hfunction hcells hcount =>
      exact ⟨_, hfunction, reaches.child hc (by simp [Object.children]), hcells, hcount⟩

/-- A function that has a name or none can be displayed. -/
theorem displayFunction_ok {name : Option String} (named : heap.Named f.name name) :
    ∃ text, heap.displayFunction f = .ok text := by
  unfold displayFunction
  cases hn : f.name with
  | none => exact ⟨_, rfl⟩
  | some g =>
      cases name with
      | none => simp [hn, Named] at named
      | some text =>
          rw [hn] at named
          exact ⟨_, by simp [string_eq_ok_iff.mpr named, bind, Except.bind, pure, Except.pure]; rfl⟩

/-- Every value that is reached can be displayed. -/
theorem Secure.display (secure : heap.Secure entries building roots)
    (reaches : ∀ h, v = .object h → heap.Reaches roots h) :
    ∃ text, heap.display v = .ok text := by
  cases v with
  | nil | bool | number => exact ⟨_, rfl⟩
  | object h =>
      have hreach := reaches h rfl
      obtain ⟨o, ho⟩ := secure.live_of_reaches hreach
      have hobject : heap.display (.object h) = heap.displayObject o := by
        simp [Heap.display, object_of_object? ho, bind, Except.bind]
      rw [hobject]
      cases o with
      | string | native | cell => exact ⟨_, rfl⟩
      | function f =>
          obtain ⟨name, -, hnamed, -⟩ := secure.function hreach ho
          exact displayFunction_ok hnamed
      | closure c =>
          obtain ⟨f, hf, hreach', -⟩ := secure.closure hreach ho
          obtain ⟨name, -, hnamed, -⟩ := secure.function hreach' hf
          obtain ⟨text, htext⟩ := displayFunction_ok hnamed
          refine ⟨text, ?_⟩
          simp [displayObject, function_eq_ok_iff.mpr hf, bind, Except.bind, htext]

/-- A new open cell becomes known. -/
theorem Secure.track (secure : heap.Secure entries building roots) {slot : Nat}
    (cell : heap.object? h = some (.cell (.opened slot))) (fresh : (slot, h) ∉ entries) :
    heap.Secure ((slot, h) :: entries) building (h :: roots) := by
  have more : heap.Secure ((slot, h) :: entries) building roots := by
    refine ⟨secure.valid, secure.live, fun g o hreach ho => (secure.fine g o hreach ho).mono
      fun _ => List.mem_cons_of_mem _, fun e he => ?_, List.nodup_cons.mpr ⟨fresh, secure.nodup⟩⟩
    rcases List.mem_cons.mp he with rfl | he
    · exact cell
    · exact secure.opened e he
  exact more.add cell (by simp [Object.children]) (.opened (List.mem_cons_self ..))

/-- Once a closure has all its cells, no closure is being built. -/
theorem Secure.built (secure : heap.Secure entries (some h) roots)
    (hc : heap.object? h = some (.closure c)) (hf : heap.object? c.function = some (.function f))
    (count : c.cells.size = f.upvalueCount) : heap.Secure entries none roots := by
  refine { secure with fine := fun g o hreach ho => ?_ }
  cases secure.fine g o hreach ho with
  | string text => exact .string text
  | function hholds htyped hlined => exact .function hholds htyped hlined
  | native hconforms => exact .native hconforms
  | @closure c' f' hfunction hcells hcount =>
      refine .closure hfunction hcells fun _ => ?_
      by_cases heq : g = h
      · obtain rfl : c = c' := by simpa [heq, hc] using ho
        obtain rfl : f = f' := by simpa [hf] using hfunction
        exact count
      · exact hcount (by simpa using heq)
  | opened hmem => exact .opened hmem
  | closed v => exact .closed v

/-! ### New objects -/

/-- An object that is no string is allocated, unless a collection overflows. Its handle is none
of those that are reached. -/
theorem Secure.allocate (secure : heap.Secure entries building roots) {o : Object}
    (other : ∀ text, o ≠ .string text)
    (children : ∀ c, .object c ∈ o.children → heap.Reaches roots c) :
    (∃ h heap', Heap.allocate o roots heap = .ok h heap' ∧ heap'.Valid ∧
      heap.Keeps roots heap' ∧ heap'.object? h = some o ∧ ∀ g, heap.Reaches roots g → g ≠ h) ∨
    ∃ heap', Heap.allocate o roots heap = .error .overflow heap' ∧ heap'.Overfull := by
  rcases Heap.allocate_spec secure.valid.toSound secure.live o with
    ⟨h, heap', hrun, hallocated⟩ | hover
  · exact .inl ⟨h, heap', hrun, hallocated.valid secure.valid other secure.live children,
      hallocated.keeps, hallocated.object?_self,
      fun g hg => hallocated.fresh (secure.live_of_reaches hg) hg⟩
  · exact .inr hover

/-- A closure of a function that is reached is allocated. It has captured nothing yet. -/
theorem Secure.allocateClosure (secure : heap.Secure entries building roots)
    (reaches : heap.Reaches roots h) (hf : heap.object? h = some (.function f))
    (room : f.upvalueCount ≤ Draft.maxCaptures) :
    (∃ c heap', Heap.allocateClosure h roots heap = .ok c heap' ∧ heap'.Valid ∧
      heap.Keeps roots heap' ∧
      heap'.object? c = some (.closure { function := h, room := f.upvalueCount }) ∧
      ∀ g, heap.Reaches roots g → g ≠ c) ∨
    ∃ heap', Heap.allocateClosure h roots heap = .error .overflow heap' ∧ heap'.Overfull := by
  have hblock : 4 * Draft.maxCaptures ≤ maxBlock := by decide
  rw [Heap.allocateClosure_eq hf (by omega)]
  refine secure.allocate (by simp) fun c hc => ?_
  obtain rfl : c = h := by simpa [Object.children] using hc
  exact reaches

end Heap

/-! ### Shared slots -/

/-- A slot is shared no matter what calls there are below. -/
theorem Profile.shares_append_add {slot : Nat} (P below : Profile) :
    Profile.shares (below.length + slot) (P ++ below) = P.shares slot := by
  induction P with
  | nil =>
      rw [List.nil_append, Profile.shares, Bool.eq_false_iff]
      intro hshares
      have := Profile.lt_of_shares hshares
      omega
  | cons b P ih =>
      have hslot : (P ++ below).length = below.length + slot ↔ P.length = slot := by
        rw [List.length_append]
        omega
      simp only [List.cons_append, Profile.shares, hslot, ih]

namespace Machine

variable {m : Machine} {C : Call} {hands : List Value} {P Q : Profile} {v : Value} {g h : Handle}
  {o : Object}

/-! ### What is reached -/

/-- What is in the hands is reached. -/
theorem reaches_hands (mem : .object h ∈ hands) : m.heap.Reaches (m.holding hands) h :=
  .root (mem_holding.mpr (.inl mem))

/-- Values in the hands can be displayed. -/
theorem Poised.display (poised : m.Poised C hands P) (mem : v ∈ hands) :
    ∃ text, m.heap.display v = .ok text :=
  poised.secure.display fun _ hv => reaches_hands (hv ▸ mem)

/-- The kind of an object in the hands is known. -/
theorem Poised.kind (poised : m.Poised C hands P) (mem : .object h ∈ hands) :
    ∃ o, m.heap.object? h = some o :=
  poised.secure.live_of_reaches (reaches_hands mem)

/-! ### Globals -/

/-- A global may be set to a value in the hands under a name in the hands. -/
theorem Poised.setGlobal (poised : m.Poised C hands P) (name : .object g ∈ hands)
    (mem : v ∈ hands) :
    ({ m with globals := m.globals.insert g v } : Machine).Poised C hands P := by
  refine { poised with secure := poised.secure.of_reaches fun h hh => .root ?_ }
  simp only [mem_holding, mem_rooted] at hh ⊢
  rcases hh with hh | hh | hh | hh | ⟨key, w, hkey, hh⟩
  · exact .inl hh
  · exact .inr (.inl hh)
  · exact .inr (.inr (.inl hh))
  · exact .inr (.inr (.inr (.inl hh)))
  · rw [Std.TreeMap.getElem?_insert] at hkey
    split at hkey
    · rename_i heq
      obtain rfl := Std.LawfulEqCmp.eq_of_compare heq
      cases hkey
      rcases hh with rfl | rfl
      · exact .inl name
      · exact .inl mem
    · exact .inr (.inr (.inr (.inr ⟨key, w, hkey, hh⟩)))

/-- The value of a global may be taken into the hands. -/
theorem Poised.global (poised : m.Poised C hands P) (found : m.globals[g]? = some v) :
    m.Poised C (v :: hands) P := by
  refine poised.reach fun h hh => ?_
  rcases List.mem_cons.mp hh with rfl | hh
  · exact .root (mem_holding.mpr (.inr (mem_rooted.mpr
      (.inr (.inr (.inr ⟨g, _, found, .inr rfl⟩))))))
  · exact reaches_hands hh

/-! ### Captured variables -/

/-- The closure of the call is reached. -/
theorem Poised.reaches_closure (poised : m.Poised C hands P) :
    m.heap.Reaches (m.holding hands) C.frame.closure :=
  .root (mem_holding.mpr
    (.inr (mem_rooted.mpr (.inr (.inl ⟨C.frame, by simp [poised.frames], rfl⟩)))))

/-- A variable that the call has captured has a cell. -/
theorem Poised.capturedCell (poised : m.Poised C hands P) {i : Nat}
    (lt : i < C.function.upvalueCount) (other : some C.frame.closure ≠ C.building) :
    ∃ cell state, capturedCell i m = .ok cell m ∧ m.heap.object? cell = some (.cell state) ∧
      m.Poised C (.object cell :: hands) P := by
  obtain ⟨c, hc, hfunction⟩ := poised.runs.closure
  obtain ⟨f, hf, -, hcells, hcount⟩ := poised.secure.closure poised.reaches_closure hc
  rw [hfunction] at hf
  obtain rfl : C.function = f := by simpa [poised.runs.function] using hf
  have hlt : i < c.cells.size := by rw [hcount other]; exact lt
  obtain ⟨state, hstate⟩ := hcells c.cells[i] (Array.mem_toList_iff.mpr (Array.getElem_mem hlt))
  refine ⟨c.cells[i], state, ?_, hstate, poised.reach fun h hh => ?_⟩
  · rw [Machine.capturedCell, bind_of_ok poised.frame,
      bind_of_ok (ask_of_ok (Heap.closure_eq_ok_iff.mpr hc)), Array.getElem?_eq_getElem hlt]
    rfl
  · rcases List.mem_cons.mp hh with heq | hh
    · refine poised.reaches_closure.child hc ?_
      obtain rfl := Value.object.inj heq
      simp [Object.children]
    · exact reaches_hands hh

/-- The value of a cell in the hands is read. -/
theorem Poised.readCell (poised : m.Poised C hands P) (mem : .object g ∈ hands) {state : Cell}
    (cell : m.heap.object? g = some (.cell state)) :
    ∃ v, readCell g m = .ok v m ∧ m.Poised C (v :: hands) P := by
  have hask : ask (fun m => m.heap.cell g) m = .ok state m :=
    ask_of_ok (Heap.cell_eq_ok_iff.mpr cell)
  cases state with
  | opened slot =>
      cases poised.secure.fine g _ (reaches_hands mem) cell with
      | opened hentry =>
          obtain ⟨v, hv, -, hpoised⟩ := poised.slotValue (poised.open_lt hentry)
          exact ⟨v, by rw [Machine.readCell, bind_of_ok hask]; exact hv, hpoised⟩
  | closed v =>
      refine ⟨v, by rw [Machine.readCell, bind_of_ok hask]; rfl, poised.reach fun h hh => ?_⟩
      rcases List.mem_cons.mp hh with rfl | hh
      · exact (reaches_hands mem).child cell (by simp [Object.children])
      · exact reaches_hands hh

/-- A cell or a closure may be changed, if the children of the new object are reached. -/
theorem Poised.replace (poised : m.Poised C hands P) {old : Object}
    (hold : m.heap.object? h = some old) (mutable : old.kind = .cell ∨ old.kind = .closure)
    (kind : o.kind = old.kind)
    (children : ∀ c, .object c ∈ o.children → m.heap.Reaches (m.holding hands) c)
    (fine : m.heap.Fine m.openCells.entries C.building h o)
    (opened : ∀ slot, (slot, h) ∈ m.openCells.entries → o = .cell (.opened slot))
    (function : ∀ c, old = .closure c → ∃ c', o = .closure c' ∧ c'.function = c.function) :
    ({ m with heap := m.heap.replace h o } : Machine).Poised C hands P := by
  have hendures := Heap.endures_replace hold mutable function
  exact { poised with
    secure := poised.secure.replace hold mutable kind children fine (List.suffix_refl _)
      (fun _ _ _ hmem => hmem) opened
    runs := poised.runs.endures hendures trivial
    calls := poised.calls.endures hendures fun _ _ => trivial }

/-- A cell in the hands is set to a value in the hands. -/
theorem Poised.writeCell (poised : m.Poised C hands P) (mem : .object g ∈ hands) {state : Cell}
    (cell : m.heap.object? g = some (.cell state)) (value : v ∈ hands) :
    ∃ m', writeCell g v m = .ok () m' ∧ m'.Poised C hands P := by
  have hask : ask (fun m => m.heap.cell g) m = .ok state m :=
    ask_of_ok (Heap.cell_eq_ok_iff.mpr cell)
  cases state with
  | opened slot =>
      cases poised.secure.fine g _ (reaches_hands mem) cell with
      | opened hentry =>
          obtain ⟨hset, hpoised⟩ := poised.setSlot (poised.open_lt hentry) value
          exact ⟨_, by rw [Machine.writeCell, bind_of_ok hask]; exact hset, hpoised⟩
  | closed old =>
      refine ⟨_, ?_, poised.replace (o := .cell (.closed v)) cell (.inl rfl) rfl (fun c hc => ?_)
        (.closed v) (fun slot hmem => ?_) (by simp)⟩
      · rw [Machine.writeCell, bind_of_ok hask]
        simp only [onHeap, Heap.setCell, Heap.cell_eq_ok_iff.mpr cell]
      · obtain rfl : .object c = v := by simpa [Object.children] using hc
        exact reaches_hands value
      · have := poised.secure.opened _ hmem
        simp [cell] at this

/-! ### New objects -/

/-- An operation of the heap that may collect: it answers with a handle, or it overflows. -/
theorem withRoots_spec {operation : List Handle → HeapM Handle} (made : Handle → Heap → Prop)
    (spec : (∃ h heap, operation m.rooted m.heap = .ok h heap ∧ heap.Valid ∧
        m.heap.Keeps m.rooted heap ∧ made h heap) ∨
      ∃ heap, operation m.rooted m.heap = .error .overflow heap ∧ heap.Overfull) :
    Ends (fun h m' => m' = { m with heap := m'.heap } ∧ m'.heap.Valid ∧
      m.heap.Keeps m.rooted m'.heap ∧ made h m'.heap) (withRoots operation m) := by
  unfold Machine.withRoots
  rcases spec with ⟨h, heap, hrun, hvalid, hkeeps, hmade⟩ | ⟨heap, herror, hover⟩
  · rw [show operation (roots m.stack m.frames m.openCells m.globals) m.heap = _ from hrun]
    exact .ok ⟨rfl, hvalid, hkeeps, hmade⟩
  · rw [show operation (roots m.stack m.frames m.openCells m.globals) m.heap = _ from herror]
    exact .lost ⟨rfl, hover⟩

/-- A poised machine may use the heap. -/
theorem Poised.withRoots (poised : m.Poised C hands P) {operation : List Handle → HeapM Handle}
    (made : Handle → Heap → Prop)
    (spec : (∃ h heap, operation m.rooted m.heap = .ok h heap ∧ heap.Valid ∧
        m.heap.Keeps m.rooted heap ∧ made h heap) ∨
      ∃ heap, operation m.rooted m.heap = .error .overflow heap ∧ heap.Overfull) :
    Ends (fun h m' => m' = { m with heap := m'.heap } ∧ m.heap.Keeps m.rooted m'.heap ∧
      made h m'.heap ∧ m'.Poised C [] P) (withRoots operation m) := by
  refine (withRoots_spec made spec).imp ?_
  rintro h m' ⟨heq, hvalid, hkeeps, hmade⟩
  exact ⟨heq, hkeeps, hmade, heq ▸ poised.renew hkeeps hvalid⟩

/-- Two strings are joined. -/
theorem Poised.concat (poised : m.Poised C hands P) {left right : String}
    (hleft : m.heap.object? g = some (.string left))
    (hright : m.heap.object? h = some (.string right)) :
    Ends (fun joined m' => m' = { m with heap := m'.heap } ∧ m'.Poised C [.object joined] P)
      (concat g h m) := by
  refine Ends.imp (poised.withRoots
    (fun joined heap => heap.object? joined = some (.string (left ++ right))) ?_) ?_
  · rw [Heap.concat_eq hleft hright]
    rcases Heap.intern_spec poised.secure.valid poised.live (left ++ right) with
      ⟨joined, heap, hrun, hinterned⟩ | hover
    · exact .inl ⟨joined, heap, hrun, hinterned.valid poised.secure.valid, hinterned.keeps,
        hinterned.object?_self⟩
    · exact .inr hover
  · rintro joined m' ⟨heq, -, ho, hpoised⟩
    exact ⟨heq, hpoised.take ho (by simp [Object.children]) (.string _)⟩

/-- A new cell for a slot that has none becomes known. -/
theorem Poised.track (poised : m.Poised C hands P) {slot : Nat}
    (cell : m.heap.object? h = some (.cell (.opened slot)))
    (absent : ∀ e ∈ m.openCells.entries, e.1 ≠ slot)
    (shared : (P ++ C.below).shares slot = true) :
    ({ m with openCells := m.openCells.insert slot h } : Machine).Poised C [.object h] P := by
  have hperm := OpenCells.insertEntry_perm h absent
  have hsecure := poised.secure.track cell fun hmem => absent _ hmem rfl
  refine { poised with secure := (hsecure.perm hperm.symm).of_reaches fun g hg => ?_, shares := ?_ }
  · simp only [mem_holding, mem_rooted] at hg
    rcases hg with hg | hg | hg | ⟨e, he, rfl⟩ | hg
    · obtain rfl : g = h := by simpa using hg
      exact .root (List.mem_cons_self ..)
    · exact .root (List.mem_cons_of_mem _ (mem_holding.mpr (.inr (mem_rooted.mpr (.inl hg)))))
    · exact .root (List.mem_cons_of_mem _ (mem_holding.mpr (.inr (mem_rooted.mpr
        (.inr (.inl hg))))))
    · rcases List.mem_cons.mp (hperm.mem_iff.mp he) with rfl | he
      · exact .root (List.mem_cons_self ..)
      · exact .root (List.mem_cons_of_mem _ (mem_holding.mpr (.inr (mem_rooted.mpr
          (.inr (.inr (.inl ⟨e, he, rfl⟩)))))))
    · exact .root (List.mem_cons_of_mem _ (mem_holding.mpr (.inr (mem_rooted.mpr
        (.inr (.inr (.inr hg)))))))
  · intro e he
    rcases List.mem_cons.mp (hperm.mem_iff.mp he) with rfl | he
    · exact shared
    · exact poised.shares e he

/-- The open cell of a slot that may be shared. -/
theorem Poised.openCell (poised : m.Poised C hands P) {slot : Nat}
    (shared : (P ++ C.below).shares slot = true) :
    Ends (fun cell m' => m' = { m with heap := m'.heap, openCells := m'.openCells } ∧
      m.heap.Keeps m.rooted m'.heap ∧ m'.heap.object? cell = some (.cell (.opened slot)) ∧
      m'.Poised C [.object cell] P) (openCell slot m) := by
  rw [Machine.openCell, bind_of_ok (get_apply m)]
  cases hfind : m.openCells.find? slot with
  | some cell =>
      have hmem := OpenCells.mem_of_find? hfind
      refine .ok ⟨rfl, .refl _ _, poised.secure.opened _ hmem, poised.reach fun h hh => ?_⟩
      obtain rfl : h = cell := by simpa using hh
      exact .root (mem_holding.mpr (.inr (mem_rooted.mpr (.inr (.inr (.inl ⟨_, hmem, rfl⟩))))))
  | none =>
      have absent := OpenCells.absent_of_find? hfind
      refine (poised.withRoots _ (poised.drop.secure.allocate (o := .cell (.opened slot)) (by simp)
        (by simp [Object.children]))).bind ?_
      rintro cell m' ⟨heq, hkeeps, ⟨hcell, -⟩, hpoised⟩
      rw [show m.openCells = m'.openCells by rw [heq]] at absent
      exact .ok ⟨by rw [heq], hkeeps, hcell, hpoised.track hcell absent shared⟩

end Machine

end Lox
