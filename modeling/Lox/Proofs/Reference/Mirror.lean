import Lox.Proofs.Heap.Answers
import Lox.Proofs.Machine.Objects
import Lox.Proofs.Reference.Machine

/-!
# The machine and the reference machine

A machine *mirrors* a reference machine when every value that it can reach denotes a datum, and
every cell that it can reach stands for a location. An open cell stands for the location of the
stack slot that it names. A closed cell holds what its location holds, and its location is not on
the stack any more; otherwise an assignment to the local would change the location but not the
cell.

Which callable a closure is, and which location a cell stands for, is kept in a *picture*. A
collection may free what the machine cannot reach, so the picture forgets it.

## Main definitions

* `Picture`, `Denotes`, `Embodies`, `Lodged` — values, callables and cells.
* `Machine.Mirroring`, `Machine.Mirrors` — the relation.

## Main results

* `Mirroring.push`, `Mirroring.shrink`, `Mirroring.setSlot` — the stack.
* `Mirroring.closeCell`, `Mirroring.writeClosed` — cells.
* `Mirroring.move`, `Mirroring.addCallable`, `Mirroring.addCell` — allocating.
-/

namespace Lox

/-- Which callables and which locations handles stand for. -/
structure Picture where
  /-- The number of a closure or a host function. -/
  callable : Handle → Nat → Prop
  /-- The location of a cell. -/
  cell : Handle → Nat → Prop

namespace Picture

/-- The picture of what some roots reach. -/
def reached (π : Picture) (heap : Heap) (roots : List Handle) : Picture where
  callable h id := π.callable h id ∧ heap.Reaches roots h
  cell h ℓ := π.cell h ℓ ∧ heap.Reaches roots h

/-- The picture with one more callable. -/
def addCallable (π : Picture) (g : Handle) (n : Nat) : Picture :=
  { π with callable := fun h id => π.callable h id ∨ (h = g ∧ id = n) }

/-- The picture with one more cell. -/
def addCell (π : Picture) (g : Handle) (n : Nat) : Picture :=
  { π with cell := fun h ℓ => π.cell h ℓ ∨ (h = g ∧ ℓ = n) }

/-- No handle stands for two things, and no two handles stand for the same. -/
structure OneToOne (π : Picture) : Prop where
  callable_right : ∀ h i j, π.callable h i → π.callable h j → i = j
  callable_left : ∀ g h i, π.callable g i → π.callable h i → g = h
  cell_right : ∀ h i j, π.cell h i → π.cell h j → i = j
  cell_left : ∀ g h i, π.cell g i → π.cell h i → g = h

/-- One picture shows all that another does. -/
structure Le (π π' : Picture) : Prop where
  callable : ∀ h i, π.callable h i → π'.callable h i
  cell : ∀ h i, π.cell h i → π'.cell h i

end Picture

section

variable {heap heap' mid : Heap} {π π' : Picture} {v w : Value} {d e : Datum} {g h : Handle}
  {i ℓ : Nat} {o old : Object} {roots : List Handle}

/-- A value denotes a datum. -/
inductive Denotes (heap : Heap) (π : Picture) : Value → Datum → Prop
  | nil : Denotes heap π .nil .nil
  | bool (b : Bool) : Denotes heap π (.bool b) (.bool b)
  | number (x : Float) : Denotes heap π (.number x) (.number x)
  | text {h : Handle} {s : String} : heap.object? h = some (.string s) →
      Denotes heap π (.object h) (.text s)
  | callable {h : Handle} {id : Nat} : π.callable h id → Denotes heap π (.object h) (.callable id)

/-- An object embodies a callable. -/
inductive Embodies (heap : Heap) (π : Picture) : Object → Reference.Callable → Prop
  | closure {c : Closure} {k : Reference.Closure} :
      heap.Holds (.object c.function) (.function k.template k.constants) →
      List.Forall₂ π.cell c.cells.toList k.captured.toList →
        Embodies heap π (.closure c) (.closure k)
  | native {n : Native} : n.run.Equivariant → Embodies heap π (.native n) (.native n)

/-- A cell stands for a location. Only the stack slots below a limit matter for closed cells. -/
inductive Lodged (limit : Nat) (entries : List (Nat × Handle)) (heap : Heap) (π : Picture)
    (stack : Array Nat) (store : Array Datum) : Handle → Nat → Prop
  | opened {h : Handle} {slot ℓ : Nat} : heap.object? h = some (.cell (.opened slot)) →
      stack[slot]? = some ℓ → (slot, h) ∈ entries → Lodged limit entries heap π stack store h ℓ
  | closed {h : Handle} {v : Value} {d : Datum} {ℓ : Nat} :
      heap.object? h = some (.cell (.closed v)) → store[ℓ]? = some d → Denotes heap π v d →
      (∀ slot < limit, stack[slot]? ≠ some ℓ) → Lodged limit entries heap π stack store h ℓ

/-- A frame enacts an active call. -/
structure Enacts (heap : Heap) (π : Picture) (fr : Frame) (a : Reference.Activation) : Prop where
  ip : a.ip = fr.ip
  base : a.base = fr.slots
  callee : π.callable fr.closure a.callee
  entered : ∃ c, heap.object? fr.closure = some (.closure c) ∧ c.function = fr.function

/-! ### Other heaps and pictures -/

/-- A larger picture shows the same. -/
theorem Denotes.mono (denotes : Denotes heap π v d) (le : π.Le π') : Denotes heap π' v d := by
  cases denotes with
  | nil => exact .nil
  | bool b => exact .bool b
  | number x => exact .number x
  | text hs => exact .text hs
  | callable hc => exact .callable (le.callable _ _ hc)

/-- A larger picture shows the same callables. -/
theorem Embodies.mono {k : Reference.Callable} (embodies : Embodies heap π o k) (le : π.Le π') :
    Embodies heap π' o k := by
  cases embodies with
  | closure hholds hcells => exact .closure hholds (hcells.imp fun _ _ => le.cell _ _)
  | native h => exact .native h

/-- A value that is reached denotes the same in a heap that keeps what is reached. -/
theorem Denotes.move (denotes : Denotes heap π v d) (keeps : heap.Keeps roots mid)
    (reaches : ∀ g, v = .object g → heap.Reaches roots g) :
    Denotes mid (π.reached heap roots) v d := by
  cases denotes with
  | nil => exact .nil
  | bool b => exact .bool b
  | number x => exact .number x
  | text hs => exact .text (keeps _ _ (reaches _ rfl) hs)
  | callable hc => exact .callable ⟨hc, reaches _ rfl⟩

/-- An object that is reached embodies the same in a heap that keeps what is reached. -/
theorem Embodies.move {k : Reference.Callable} (embodies : Embodies heap π o k)
    (ho : heap.object? h = some o) (keeps : heap.Keeps roots mid) (reaches : heap.Reaches roots h) :
    Embodies mid (π.reached heap roots) o k := by
  cases embodies with
  | native hn => exact .native hn
  | closure hholds hcells =>
      refine .closure (hholds.later keeps fun g hg => ?_)
        (forall₂_mono hcells fun c hc i _ hci => ?_)
      · obtain rfl := Value.object.inj hg
        exact reaches.child ho (by simp [Object.children])
      · exact ⟨hci, reaches.child ho (by simp [Object.children, Array.mem_toList_iff.mp hc])⟩

/-- A value counts as false when the datum that it denotes does. -/
theorem Denotes.isFalsey (denotes : Denotes heap π v d) :
    d.isFalsey = v.isFalsey := by
  cases denotes <;> rfl

/-- An object is the same as no other datum. -/
theorem Denotes.same_iff (denotes : Denotes heap π (.object g) d) :
    d.same e = true ↔ e = d := by
  cases denotes <;> cases e <;> simp [Datum.same, eq_comm]

/-- Changing a cell or a closure leaves what values denote. -/
theorem Denotes.replace (denotes : Denotes heap π v d) (hold : heap.object? h = some old)
    (mutable : old.kind = .cell ∨ old.kind = .closure) : Denotes (heap.replace h o) π v d := by
  cases denotes with
  | nil => exact .nil
  | bool b => exact .bool b
  | number x => exact .number x
  | text hs => exact .text (Heap.shared_replace hold mutable _ _ trivial hs (.inl rfl)).1
  | callable hc => exact .callable hc

/-- Changing a cell or a closure leaves what other objects embody. -/
theorem Embodies.replace {k : Reference.Callable} (embodies : Embodies heap π o k) {new : Object}
    (hold : heap.object? h = some old) (mutable : old.kind = .cell ∨ old.kind = .closure) :
    Embodies (heap.replace h new) π o k := by
  cases embodies with
  | native hn => exact .native hn
  | closure hholds hcells =>
      exact .closure (hholds.transfer (Heap.shared_replace hold mutable) fun _ _ => trivial) hcells

end

namespace Machine

/-! ### The relation -/

/-- A machine mirrors a reference machine, with respect to a list of open cells and to a limit
for closed cells. -/
structure Mirroring (limit : Nat) (entries : List (Nat × Handle)) (π : Picture) (m : Machine)
    (r : Reference) : Prop where
  valid : m.heap.Valid
  oneToOne : π.OneToOne
  callables : ∀ h id, π.callable h id → ∃ o k, m.heap.object? h = some o ∧
    r.callables[id]? = some k ∧ Embodies m.heap π o k
  cells : ∀ h ℓ, π.cell h ℓ → Lodged limit entries m.heap π r.stack r.store h ℓ
  opened : ∀ e ∈ entries, m.heap.object? e.2 = some (.cell (.opened e.1)) ∧
    ∃ ℓ, r.stack[e.1]? = some ℓ ∧ π.cell e.2 ℓ
  sorted : entries.Pairwise fun e e' => e.1 < e'.1
  stack : List.Forall₂ (fun v ℓ => ∃ d, r.store[ℓ]? = some d ∧ Denotes m.heap π v d)
    m.stack.toList r.stack.toList
  nodup : r.stack.toList.Nodup
  frames : List.Forall₂ (Enacts m.heap π) m.frames r.calls
  globals_right : ∀ g v, m.globals[g]? = some v → ∃ name d,
    m.heap.object? g = some (.string name) ∧ r.globals name = some d ∧ Denotes m.heap π v d
  globals_left : ∀ name d, r.globals name = some d → ∃ g v,
    m.heap.object? g = some (.string name) ∧ m.globals[g]? = some v ∧ Denotes m.heap π v d
  printout : r.printout = m.printout
  stackMax : r.stackMax = m.stackMax
  clock : r.clock = m.clock
  hostCalls : r.hostCalls = m.hostCalls

/-- A machine **mirrors** a reference machine. -/
abbrev Mirrors (π : Picture) (m : Machine) (r : Reference) : Prop :=
  Mirroring m.stack.size m.openCells.entries π m r

namespace Mirroring

variable {limit : Nat} {entries : List (Nat × Handle)} {π : Picture} {m : Machine} {r : Reference}
  {v w : Value} {d : Datum} {g h : Handle} {ℓ i : Nat} {mid : Heap}

/-- Both stacks have the same size. -/
theorem size (mirrors : Mirroring limit entries π m r) : r.stack.size = m.stack.size :=
  mirrors.stack.length_eq.symm

/-- The value in a stack slot denotes what the location of the slot holds. -/
theorem slot (mirrors : Mirroring limit entries π m r) (i : Nat) :
    Option.Rel (fun v ℓ => ∃ d, r.store[ℓ]? = some d ∧ Denotes m.heap π v d) m.stack[i]?
      r.stack[i]? := by
  rw [← Array.getElem?_toList, ← Array.getElem?_toList]
  exact forall₂_getElem? mirrors.stack i

/-- Two stack slots have different locations. -/
theorem slot_inj (mirrors : Mirroring limit entries π m r) {i j : Nat} (hi : r.stack[i]? = some ℓ)
    (hj : r.stack[j]? = some ℓ) : i = j := by
  rw [← Array.getElem?_toList] at hi hj
  obtain ⟨hi', hi⟩ := List.getElem?_eq_some_iff.mp hi
  obtain ⟨hj', hj⟩ := List.getElem?_eq_some_iff.mp hj
  exact (List.Nodup.getElem_inj_iff mirrors.nodup).mp (hi.trans hj.symm)

/-- A location on the stack holds something. -/
theorem stored (mirrors : Mirroring limit entries π m r) {i : Nat} (hi : r.stack[i]? = some ℓ) :
    ∃ v d, m.stack[i]? = some v ∧ r.store[ℓ]? = some d ∧ Denotes m.heap π v d := by
  have hrel := mirrors.slot i
  rw [hi] at hrel
  generalize hv : m.stack[i]? = o at hrel
  cases hrel with
  | some h =>
      obtain ⟨d, hd, hdenotes⟩ := h
      exact ⟨_, d, rfl, hd, hdenotes⟩

/-! ### The stack -/

/-- Pushing a value and the datum that it denotes. The datum gets a location that no cell and no
slot has. -/
theorem push (mirrors : Mirroring m.stack.size entries π m r) (denotes : Denotes m.heap π v d) :
    Mirroring (m.stack.size + 1) entries π { m with stack := m.stack.push v }
      { r with store := r.store.push d, stack := r.stack.push r.store.size } := by
  have hstore : ∀ {ℓ e}, r.store[ℓ]? = some e → (r.store.push d)[ℓ]? = some e ∧ ℓ ≠ r.store.size :=
    fun {ℓ e} he => by
      have hlt := (Array.getElem?_eq_some_iff.mp he).1
      rw [Array.getElem?_push, if_neg (by omega)]
      exact ⟨he, by omega⟩
  have hstack : ∀ {i ℓ}, r.stack[i]? = some ℓ → (r.stack.push r.store.size)[i]? = some ℓ :=
    fun {i ℓ} hi => by
      have hlt := (Array.getElem?_eq_some_iff.mp hi).1
      rw [Array.getElem?_push, if_neg (by omega)]
      exact hi
  refine { mirrors with
    cells := fun h ℓ hcell => ?_, opened := fun e he => ?_, stack := ?_, nodup := ?_ }
  · cases mirrors.cells h ℓ hcell with
    | opened ho hslot hmem => exact .opened ho (hstack hslot) hmem
    | closed ho hd hdenotes hoff =>
        refine .closed ho (hstore hd).1 hdenotes fun i hi => ?_
        rw [Array.getElem?_push]
        split
        · intro heq
          exact (hstore hd).2 (Option.some.inj heq).symm
        · refine hoff i ?_
          rw [mirrors.size] at *
          omega
  · obtain ⟨ho, ℓ, hℓ, hcell⟩ := mirrors.opened e he
    exact ⟨ho, ℓ, hstack hℓ, hcell⟩
  · simp only [Array.toList_push]
    refine List.rel_append ?_ (.cons ⟨d, by simp, denotes⟩ .nil)
    refine mirrors.stack.imp ?_
    rintro u ℓ ⟨e, he, hdenotes⟩
    exact ⟨e, (hstore he).1, hdenotes⟩
  · simp only [Array.toList_push]
    refine mirrors.nodup.append (List.nodup_singleton _) fun ℓ hℓ hmem => ?_
    obtain rfl := List.mem_singleton.mp hmem
    obtain ⟨u, -, e, he, -⟩ := exists_of_forall₂ mirrors.stack hℓ
    exact (hstore he).2 rfl

/-- Shortening both stacks, where no open cell stands for a slot that goes. -/
theorem shrink (mirrors : Mirroring limit entries π m r) (n : Nat) (le : min n m.stack.size ≤ limit)
    (below : ∀ e ∈ entries, e.1 < n) :
    Mirroring (min n m.stack.size) entries π { m with stack := m.stack.shrink n }
      { r with stack := r.stack.shrink n } := by
  have hstack : ∀ {i : Nat}, i < n → (r.stack.shrink n)[i]? = r.stack[i]? := fun {i} hi => by
    rw [← Array.getElem?_toList, ← Array.getElem?_toList, Array.toList_shrink,
      List.getElem?_take_of_lt hi]
  refine { mirrors with
    cells := fun h ℓ hcell => ?_, opened := fun e he => ?_, stack := ?_, nodup := ?_ }
  · cases mirrors.cells h ℓ hcell with
    | opened ho hslot hmem => exact .opened ho ((hstack (below _ hmem)).trans hslot) hmem
    | closed ho hd hdenotes hoff =>
        refine .closed ho hd hdenotes fun i hi => ?_
        rw [hstack (by omega)]
        exact hoff i (by omega)
  · obtain ⟨ho, ℓ, hℓ, hcell⟩ := mirrors.opened e he
    exact ⟨ho, ℓ, (hstack (below e he)).trans hℓ, hcell⟩
  · simp only [Array.toList_shrink]
    exact List.forall₂_take n mirrors.stack
  · simp only [Array.toList_shrink]
    exact mirrors.nodup.sublist (List.take_sublist n _)

/-- Setting a stack slot and assigning its location. -/
theorem setSlot (mirrors : Mirroring m.stack.size entries π m r) {slot : Nat}
    (hslot : r.stack[slot]? = some ℓ)
    (denotes : Denotes m.heap π v d) :
    Mirroring m.stack.size entries π { m with stack := m.stack.setIfInBounds slot v }
      { r with store := r.store.setIfInBounds ℓ d } := by
  obtain ⟨_, _, hin, hold, -⟩ := mirrors.stored hslot
  have hlt : ℓ < r.store.size := (Array.getElem?_eq_some_iff.mp hold).1
  have hself : (r.store.setIfInBounds ℓ d)[ℓ]? = some d := by simp [hlt]
  have hother : ∀ {i}, i ≠ ℓ → (r.store.setIfInBounds ℓ d)[i]? = r.store[i]? := fun {i} hne => by
    rw [Array.getElem?_setIfInBounds_ne (Ne.symm hne)]
  refine { mirrors with cells := fun h i hcell => ?_, stack := ?_ }
  · cases mirrors.cells h i hcell with
    | opened ho hslot' hmem => exact .opened ho hslot' hmem
    | closed ho hd hdenotes hoff =>
        refine .closed ho ?_ hdenotes hoff
        rw [hother, hd]
        rintro rfl
        exact hoff slot (Array.getElem?_eq_some_iff.mp hin).1 hslot
  · simp only [Array.toList_setIfInBounds]
    rw [List.forall₂_iff_get]
    refine ⟨by simpa using mirrors.stack.length_eq, fun i hi hi' => ?_⟩
    simp only [List.length_set] at hi hi'
    have hrel := (List.forall₂_iff_get.mp mirrors.stack).2 i hi hi'
    simp only [List.get_eq_getElem, List.getElem_set] at hrel ⊢
    have hℓ : r.stack[i]? = some r.stack.toList[i] := by
      rw [← Array.getElem?_toList, List.getElem?_eq_getElem hi']
    split
    · rename_i heq
      subst heq
      obtain rfl := Option.some.inj (hslot.symm.trans hℓ)
      exact ⟨d, hself, denotes⟩
    · rename_i hne
      obtain ⟨e, he, hdenotes⟩ := hrel
      refine ⟨e, ?_, hdenotes⟩
      rw [hother, he]
      intro heq
      exact hne (mirrors.slot_inj hslot (heq ▸ hℓ))

/-! ### Cells -/

/-- Less may be asked of closed cells. -/
theorem lower {limit' : Nat} (mirrors : Mirroring limit entries π m r) (le : limit' ≤ limit) :
    Mirroring limit' entries π m r := by
  refine { mirrors with cells := fun h ℓ hcell => ?_ }
  cases mirrors.cells h ℓ hcell with
  | opened ho hslot hmem => exact .opened ho hslot hmem
  | closed ho hd hdenotes hoff =>
      exact .closed ho hd hdenotes fun i hi => hoff i (Nat.lt_of_lt_of_le hi le)

/-- Changing a cell that stands for a location. The others stay as they are. -/
theorem replaceCell {entries' : List (Nat × Handle)} {state : Cell} {store : Array Datum}
    (mirrors : Mirroring limit entries π m r) (cell : π.cell h ℓ)
    (fewer : entries'.Sublist entries) (removed : ∀ e ∈ entries', e.2 ≠ h)
    (kept : ∀ e ∈ entries, e.2 ≠ h → e ∈ entries')
    (children : ∀ c, .object c ∈ (Object.cell state).children → m.heap.Live c)
    (stored : ∀ (i : Nat) d, i ≠ ℓ → r.store[i]? = some d → store[i]? = some d)
    (onStack : ∀ (i : Nat) d, r.stack[i]? = some ℓ → r.store[ℓ]? = some d → store[ℓ]? = some d)
    (lodged : Lodged limit entries' (m.heap.replace h (.cell state)) π r.stack store
      h ℓ) :
    Mirroring limit entries' π { m with heap := m.heap.replace h (.cell state) }
      { r with store } := by
  obtain ⟨before, hbefore⟩ : ∃ c, m.heap.object? h = some (.cell c) := by
    cases mirrors.cells h ℓ cell with
    | opened ho => exact ⟨_, ho⟩
    | closed ho => exact ⟨_, ho⟩
  have hmutable : (Object.cell before).kind = .cell ∨ (Object.cell before).kind = .closure :=
    .inl rfl
  have hother : ∀ {g o}, g ≠ h → m.heap.object? g = some o →
      (m.heap.replace h (.cell state)).object? g = some o := fun {g o} hne ho => by
    rw [Heap.object?_replace ⟨_, hbefore⟩, if_neg hne, ho]
  have hnocell : ∀ {g o}, m.heap.object? g = some o → o.kind ≠ .cell →
      (m.heap.replace h (.cell state)).object? g = some o := fun {g o} ho hkind => by
    refine hother ?_ ho
    rintro rfl
    obtain rfl := Option.some.inj (ho.symm.trans hbefore)
    exact hkind rfl
  have hstored : ∀ {g i d}, π.cell g i → g ≠ h → r.store[i]? = some d → store[i]? = some d :=
    fun {g i d} hcell hne => by
      refine stored i d ?_
      rintro rfl
      exact hne (mirrors.oneToOne.cell_left _ _ _ hcell cell)
  refine { mirrors with
    valid := mirrors.valid.replace hbefore (fun _ h => by cases h) (fun _ h => by cases h) children
    callables := fun g id hid => ?_, cells := fun g i hcell => ?_, opened := fun e he => ?_
    sorted := mirrors.sorted.sublist fewer, stack := ?_, frames := ?_
    globals_right := fun g v hv => ?_, globals_left := fun name d hd => ?_ }
  · obtain ⟨o, k, ho, hk, hembodies⟩ := mirrors.callables g id hid
    refine ⟨o, k, hnocell ho ?_, hk, hembodies.replace hbefore hmutable⟩
    cases hembodies <;> rintro ⟨⟩
  · by_cases hself : g = h
    · subst hself
      obtain rfl := mirrors.oneToOne.cell_right _ _ _ cell hcell
      exact lodged
    · cases mirrors.cells g i hcell with
      | opened ho hslot hmem => exact .opened (hother hself ho) hslot (kept _ hmem hself)
      | closed ho hd hdenotes hoff =>
          exact .closed (hother hself ho) (hstored hcell hself hd)
            (hdenotes.replace hbefore hmutable) hoff
  · obtain ⟨ho, hslot⟩ := mirrors.opened e (fewer.mem he)
    exact ⟨hother (removed e he) ho, hslot⟩
  · rw [List.forall₂_iff_get]
    refine ⟨mirrors.stack.length_eq, fun i hi hi' => ?_⟩
    obtain ⟨d, hd, hdenotes⟩ := (List.forall₂_iff_get.mp mirrors.stack).2 i hi hi'
    refine ⟨d, ?_, hdenotes.replace hbefore hmutable⟩
    by_cases hself : r.stack.toList.get ⟨i, hi'⟩ = ℓ
    · have hslot : r.stack[i]? = some ℓ := by
        rw [← hself, ← Array.getElem?_toList, List.getElem?_eq_getElem hi']
        rfl
      rw [hself] at hd ⊢
      exact onStack i d hslot hd
    · exact stored _ d hself hd
  · refine mirrors.frames.imp fun fr a hframe => { hframe with entered := ?_ }
    obtain ⟨c, hc, heq⟩ := hframe.entered
    exact ⟨c, hnocell hc (by rintro ⟨⟩), heq⟩
  · obtain ⟨name, d, hname, hd, hdenotes⟩ := mirrors.globals_right g v hv
    exact ⟨name, d, hnocell hname (by rintro ⟨⟩), hd, hdenotes.replace hbefore hmutable⟩
  · obtain ⟨g, v, hname, hv, hdenotes⟩ := mirrors.globals_left name d hd
    exact ⟨g, v, hnocell hname (by rintro ⟨⟩), hv, hdenotes.replace hbefore hmutable⟩

/-- What a value denotes is live. -/
theorem live_of_denotes (mirrors : Mirroring limit entries π m r) (denotes : Denotes m.heap π v d)
    (heq : v = .object g) : m.heap.Live g := by
  subst heq
  cases denotes with
  | text hs => exact ⟨_, hs⟩
  | callable hc =>
      obtain ⟨o, -, ho, -⟩ := mirrors.callables _ _ hc
      exact ⟨o, ho⟩

/-- Closing an open cell whose slot does not matter any more. -/
theorem closeCell {kept rest : List (Nat × Handle)} {e : Nat × Handle}
    (mirrors : Mirroring limit (kept ++ e :: rest) π m r) (le : limit ≤ e.1) :
    ∃ v, m.stack[e.1]? = some v ∧ m.heap.cell e.2 = .ok (.opened e.1) ∧
      Mirroring limit (kept ++ rest) π
        { m with heap := m.heap.replace e.2 (.cell (.closed v)) } r := by
  obtain ⟨hopen, ℓ, hslot, hcell⟩ := mirrors.opened e (by simp)
  obtain ⟨v, d, hv, hd, hdenotes⟩ := mirrors.stored hslot
  refine ⟨v, hv, Heap.cell_eq_ok_iff.mpr hopen, ?_⟩
  refine mirrors.replaceCell hcell (by simp) ?_ ?_ ?_ (fun _ _ _ hd => hd) (fun _ _ _ hd => hd) ?_
  · rintro e' he' heq
    have hopen' := (mirrors.opened e'
      (by simp only [List.mem_append, List.mem_cons] at he' ⊢; tauto)).1
    obtain hsame : e.1 = e'.1 := by simpa [heq, hopen] using hopen'
    have hsorted := List.pairwise_append.mp mirrors.sorted
    rcases List.mem_append.mp he' with hmem | hmem
    · have := hsorted.2.2 e' hmem e (List.mem_cons_self ..)
      omega
    · have := (List.pairwise_cons.mp hsorted.2.1).1 e' hmem
      omega
  · intro e' he' hne
    simp only [List.mem_append, List.mem_cons] at he' ⊢
    rcases he' with hmem | rfl | hmem
    · exact .inl hmem
    · exact absurd rfl hne
    · exact .inr hmem
  · intro c hc
    obtain rfl : v = .object c := by simpa [Object.children, eq_comm] using hc
    exact mirrors.live_of_denotes hdenotes rfl
  · refine .closed ?_ hd (hdenotes.replace hopen (.inl rfl)) fun i hi hi' => ?_
    · rw [Heap.object?_replace ⟨_, hopen⟩, if_pos rfl]
    · have := mirrors.slot_inj hslot hi'
      omega

/-- Assigning a closed cell and its location. -/
theorem writeClosed {old : Value} (mirrors : Mirroring m.stack.size entries π m r)
    (cell : π.cell h ℓ) (hold : m.heap.object? h = some (.cell (.closed old)))
    (denotes : Denotes m.heap π v d) :
    Mirroring m.stack.size entries π { m with heap := m.heap.replace h (.cell (.closed v)) }
      { r with store := r.store.setIfInBounds ℓ d } := by
  have hlodged := mirrors.cells h ℓ cell
  cases hlodged with
  | opened ho => simp [hold] at ho
  | closed ho he hdenotes hoff =>
      have hlt : ℓ < r.store.size := (Array.getElem?_eq_some_iff.mp he).1
      have hne : ∀ e ∈ entries, e.2 ≠ h := by
        rintro e he rfl
        have := (mirrors.opened e he).1
        simp [hold] at this
      refine mirrors.replaceCell cell (List.Sublist.refl _) hne (fun _ h _ => h) ?_ ?_ ?_ ?_
      · intro c hc
        obtain rfl : v = .object c := by simpa [Object.children, eq_comm] using hc
        exact mirrors.live_of_denotes denotes rfl
      · intro i d' hi hd
        rw [Array.getElem?_setIfInBounds_ne (Ne.symm hi), hd]
      · intro i d' hi
        refine absurd hi (hoff i ?_)
        rw [← mirrors.size]
        exact (Array.getElem?_eq_some_iff.mp hi).1
      · refine .closed ?_ (by simp [hlt]) (denotes.replace hold (.inl rfl)) hoff
        rw [Heap.object?_replace ⟨_, hold⟩, if_pos rfl]

/-! ### Allocating -/

/-- A heap that keeps what the machine keeps alive. -/
theorem move (mirrors : Mirroring limit entries π m r) (keeps : m.heap.Keeps m.rooted mid)
    (valid : mid.Valid) (known : ∀ e ∈ entries, e.2 ∈ m.rooted) :
    Mirroring limit entries (π.reached m.heap m.rooted) { m with heap := mid } r := by
  have values : ∀ {v d}, Denotes m.heap π v d → (∀ g, v = .object g → g ∈ m.rooted) →
      Denotes mid (π.reached m.heap m.rooted) v d := fun {v d} hdenotes hroot =>
    hdenotes.move keeps fun g hg => .root (hroot g hg)
  refine { mirrors with
    valid := valid, oneToOne := ?_, callables := ?_, cells := ?_, opened := fun e he => ?_
    stack := ?_, frames := ?_, globals_right := fun g v hv => ?_
    globals_left := fun name d hd => ?_ }
  · exact ⟨fun _ _ _ h h' => mirrors.oneToOne.callable_right _ _ _ h.1 h'.1,
      fun _ _ _ h h' => mirrors.oneToOne.callable_left _ _ _ h.1 h'.1,
      fun _ _ _ h h' => mirrors.oneToOne.cell_right _ _ _ h.1 h'.1,
      fun _ _ _ h h' => mirrors.oneToOne.cell_left _ _ _ h.1 h'.1⟩
  · rintro h id ⟨hid, hreach⟩
    obtain ⟨o, k, ho, hk, hembodies⟩ := mirrors.callables h id hid
    exact ⟨o, k, keeps _ _ hreach ho, hk, hembodies.move ho keeps hreach⟩
  · rintro h ℓ ⟨hcell, hreach⟩
    cases mirrors.cells h ℓ hcell with
    | opened ho hslot hmem => exact .opened (keeps _ _ hreach ho) hslot hmem
    | closed ho hd hdenotes hoff =>
        refine .closed (keeps _ _ hreach ho) hd (hdenotes.move keeps fun g hg => ?_) hoff
        exact hreach.child ho (by simp [Object.children, hg])
  · obtain ⟨ho, ℓ, hslot, hcell⟩ := mirrors.opened e he
    have hreach : m.heap.Reaches m.rooted e.2 := .root (known e he)
    exact ⟨keeps _ _ hreach ho, ℓ, hslot, hcell, hreach⟩
  · refine forall₂_mono mirrors.stack ?_
    rintro v hv ℓ - ⟨d, hd, hdenotes⟩
    refine ⟨d, hd, values hdenotes ?_⟩
    rintro g rfl
    exact mem_rooted.mpr (.inl hv)
  · refine forall₂_mono mirrors.frames fun fr hfr a _ hframe => ?_
    have hreach : m.heap.Reaches m.rooted fr.closure :=
      .root (mem_rooted.mpr (.inr (.inl ⟨fr, hfr, rfl⟩)))
    obtain ⟨c, hc, heq⟩ := hframe.entered
    exact { hframe with
      callee := ⟨hframe.callee, hreach⟩, entered := ⟨c, keeps _ _ hreach hc, heq⟩ }
  · obtain ⟨name, d, hname, hd, hdenotes⟩ := mirrors.globals_right g v hv
    refine ⟨name, d, keeps _ _ (.root ?_) hname, hd, values hdenotes ?_⟩
    · exact mem_rooted.mpr (.inr (.inr (.inr ⟨g, v, hv, .inl rfl⟩)))
    · rintro h rfl
      exact mem_rooted.mpr (.inr (.inr (.inr ⟨g, _, hv, .inr rfl⟩)))
  · obtain ⟨g, v, hname, hv, hdenotes⟩ := mirrors.globals_left name d hd
    refine ⟨g, v, keeps _ _ (.root ?_) hname, hv, values hdenotes ?_⟩
    · exact mem_rooted.mpr (.inr (.inr (.inr ⟨g, v, hv, .inl rfl⟩)))
    · rintro h rfl
      exact mem_rooted.mpr (.inr (.inr (.inr ⟨g, _, hv, .inr rfl⟩)))

/-- A larger picture may be taken if it shows all that is new. -/
theorem extend (mirrors : Mirroring limit entries π m r) (le : π.Le π') (oneToOne : π'.OneToOne)
    {callables : Array Reference.Callable} {entries' : List (Nat × Handle)}
    (grows : ∀ (id : Nat) k, r.callables[id]? = some k → callables[id]? = some k)
    (more : ∀ e ∈ entries, e ∈ entries')
    (callable : ∀ h id, π'.callable h id → ¬ π.callable h id → ∃ o k,
      m.heap.object? h = some o ∧ callables[id]? = some k ∧ Embodies m.heap π' o k)
    (cells : ∀ h ℓ, π'.cell h ℓ → ¬ π.cell h ℓ →
      Lodged limit entries' m.heap π' r.stack r.store h ℓ)
    (opened : ∀ e ∈ entries', e ∉ entries → m.heap.object? e.2 = some (.cell (.opened e.1)) ∧
      ∃ ℓ, r.stack[e.1]? = some ℓ ∧ π'.cell e.2 ℓ)
    (sorted : entries'.Pairwise fun e e' => e.1 < e'.1) :
    Mirroring limit entries' π' m { r with callables } := by
  refine { mirrors with
    oneToOne := oneToOne, callables := fun h id hid => ?_, cells := fun h ℓ hcell => ?_
    opened := fun e he => ?_, sorted := sorted, stack := ?_, frames := ?_
    globals_right := fun g v hv => ?_, globals_left := fun name d hd => ?_ }
  · by_cases hold : π.callable h id
    · obtain ⟨o, k, ho, hk, hembodies⟩ := mirrors.callables h id hold
      exact ⟨o, k, ho, grows _ _ hk, hembodies.mono le⟩
    · exact callable h id hid hold
  · by_cases hold : π.cell h ℓ
    · cases mirrors.cells h ℓ hold with
      | opened ho hslot hmem => exact .opened ho hslot (more _ hmem)
      | closed ho hd hdenotes hoff => exact .closed ho hd (hdenotes.mono le) hoff
    · exact cells h ℓ hcell hold
  · by_cases hold : e ∈ entries
    · obtain ⟨ho, ℓ, hslot, hcell⟩ := mirrors.opened e hold
      exact ⟨ho, ℓ, hslot, le.cell _ _ hcell⟩
    · exact opened e he hold
  · refine mirrors.stack.imp ?_
    rintro v ℓ ⟨d, hd, hdenotes⟩
    exact ⟨d, hd, hdenotes.mono le⟩
  · exact mirrors.frames.imp fun fr a hframe =>
      { hframe with callee := le.callable _ _ hframe.callee }
  · obtain ⟨name, d, hname, hd, hdenotes⟩ := mirrors.globals_right g v hv
    exact ⟨name, d, hname, hd, hdenotes.mono le⟩
  · obtain ⟨g, v, hname, hv, hdenotes⟩ := mirrors.globals_left name d hd
    exact ⟨g, v, hname, hv, hdenotes.mono le⟩

/-- A new callable gets the next number. -/
theorem addCallable (mirrors : Mirroring limit entries π m r) {o : Object} {k : Reference.Callable}
    (ho : m.heap.object? g = some o) (embodies : Embodies m.heap π o k)
    (fresh : ∀ id, ¬ π.callable g id) :
    Mirroring limit entries (π.addCallable g r.callables.size) m
      { r with callables := r.callables.push k } := by
  have hle : π.Le (π.addCallable g r.callables.size) := ⟨fun _ _ => .inl, fun _ _ => id⟩
  have hnew : ∀ h, ¬ π.callable h r.callables.size := fun h hid => by
    obtain ⟨-, k, -, hk, -⟩ := mirrors.callables h _ hid
    simp at hk
  refine mirrors.extend hle ?_ (fun id k hk => ?_) (fun _ => id) ?_ ?_ ?_ mirrors.sorted
  · refine ⟨?_, ?_, mirrors.oneToOne.cell_right, mirrors.oneToOne.cell_left⟩
    · rintro h i j (hi | ⟨rfl, rfl⟩) (hj | ⟨heq, rfl⟩)
      · exact mirrors.oneToOne.callable_right _ _ _ hi hj
      · exact absurd (heq ▸ hi) (fresh i)
      · exact absurd hj (fresh j)
      · rfl
    · rintro h h' i (hi | ⟨rfl, rfl⟩) (hj | ⟨rfl, heq⟩)
      · exact mirrors.oneToOne.callable_left _ _ _ hi hj
      · exact absurd (heq ▸ hi) (hnew h)
      · exact absurd hj (hnew h')
      · rfl
  · have hlt := (Array.getElem?_eq_some_iff.mp hk).1
    rw [Array.getElem?_push, if_neg (by omega), hk]
  · rintro h id (hid | ⟨rfl, rfl⟩) hold
    · exact absurd hid hold
    · exact ⟨o, k, ho, by simp, embodies.mono hle⟩
  · exact fun h ℓ hcell hold => absurd hcell hold
  · exact fun e he hold => absurd he hold

/-- A new open cell of a slot that has none stands for the location of the slot. -/
theorem addCell (mirrors : Mirroring m.stack.size entries π m r) {slot : Nat}
    (ho : m.heap.object? g = some (.cell (.opened slot))) (hslot : r.stack[slot]? = some ℓ)
    (fresh : ∀ ℓ, ¬ π.cell g ℓ) (absent : ∀ e ∈ entries, e.1 ≠ slot) :
    Mirroring m.stack.size (OpenCells.insertEntry slot g entries) (π.addCell g ℓ) m r := by
  have hle : π.Le (π.addCell g ℓ) := ⟨fun _ _ => id, fun _ _ => .inl⟩
  have hperm := OpenCells.insertEntry_perm g absent
  have hnew : ∀ h, ¬ π.cell h ℓ := fun h hcell => by
    cases mirrors.cells h ℓ hcell with
    | opened _ hslot' hmem => exact absent _ hmem (mirrors.slot_inj hslot' hslot)
    | closed _ _ _ hoff =>
        refine hoff slot ?_ hslot
        rw [← mirrors.size]
        exact (Array.getElem?_eq_some_iff.mp hslot).1
  refine mirrors.extend hle ?_ (fun _ _ => id)
    (fun e he => hperm.mem_iff.mpr (List.mem_cons_of_mem _ he)) ?_ ?_ ?_ ?_
  · refine ⟨mirrors.oneToOne.callable_right, mirrors.oneToOne.callable_left, ?_, ?_⟩
    · rintro h i j (hi | ⟨rfl, rfl⟩) (hj | ⟨heq, rfl⟩)
      · exact mirrors.oneToOne.cell_right _ _ _ hi hj
      · exact absurd (heq ▸ hi) (fresh i)
      · exact absurd hj (fresh j)
      · rfl
    · rintro h h' i (hi | ⟨rfl, rfl⟩) (hj | ⟨rfl, heq⟩)
      · exact mirrors.oneToOne.cell_left _ _ _ hi hj
      · exact absurd (heq ▸ hi) (hnew h)
      · exact absurd hj (hnew h')
      · rfl
  · exact fun h id hid hold => absurd hid hold
  · rintro h i (hcell | ⟨rfl, rfl⟩) hold
    · exact absurd hcell hold
    · exact .opened ho hslot (hperm.mem_iff.mpr (List.mem_cons_self ..))
  · intro e he hold
    rcases List.mem_cons.mp (hperm.mem_iff.mp he) with rfl | hmem
    · exact ⟨ho, ℓ, hslot, .inr ⟨rfl, rfl⟩⟩
    · exact absurd hmem hold
  · exact OpenCells.insertEntry_sorted g mirrors.sorted

/-- A closure captures a cell, and its counterpart the location of the cell. -/
theorem capture (mirrors : Mirroring limit entries π m r) {id : Nat} {c : Closure}
    {k : Reference.Closure} {cell : Handle} (callable : π.callable h id)
    (hc : m.heap.object? h = some (.closure c)) (hk : r.callables[id]? = some (.closure k))
    (hcell : π.cell cell ℓ) :
    Mirroring limit entries π { m with heap := m.heap.replace h (.closure (c.capture cell)) }
      { r with callables :=
          r.callables.setIfInBounds id (.closure { k with captured := k.captured.push ℓ }) } := by
  have hmutable : (Object.closure c).kind = .cell ∨ (Object.closure c).kind = .closure := .inr rfl
  have hlt : id < r.callables.size := (Array.getElem?_eq_some_iff.mp hk).1
  have hview := fun g => Heap.object?_replace (g := g) (o := .closure (c.capture cell)) ⟨_, hc⟩
  have hnoclosure : ∀ {g o}, m.heap.object? g = some o → o.kind ≠ .closure →
      (m.heap.replace h (.closure (c.capture cell))).object? g = some o := fun {g o} ho hkind => by
    rw [hview, if_neg, ho]
    rintro rfl
    obtain rfl := Option.some.inj (ho.symm.trans hc)
    exact hkind rfl
  have hembodied : Embodies m.heap π (.closure c) (.closure k) := by
    obtain ⟨o, k', ho, hk', hembodies⟩ := mirrors.callables h id callable
    rw [hc] at ho
    rw [hk] at hk'
    cases ho
    cases hk'
    exact hembodies
  cases hembodied with
  | closure hholds hcells =>
  refine { mirrors with
    valid := ?_, callables := fun g i hi => ?_, cells := fun g i hi => ?_, opened := fun e he => ?_
    stack := ?_, frames := ?_, globals_right := fun g v hv => ?_
    globals_left := fun name d hd => ?_ }
  · refine mirrors.valid.replace hc (fun _ h => by cases h) (fun _ h => by cases h) fun g hg => ?_
    simp only [Object.children, Closure.capture, Array.toList_push, List.map_append, List.map_cons,
      List.map_nil, List.mem_cons, List.mem_append, List.not_mem_nil, or_false,
      Value.object.injEq] at hg
    rcases hg with rfl | hg | rfl
    · exact mirrors.valid.closed h _ hc _ (by simp [Object.children])
    · exact mirrors.valid.closed h _ hc _
        (by simp only [Object.children, List.mem_cons]; exact .inr hg)
    · cases mirrors.cells g ℓ hcell with
      | opened ho => exact ⟨_, ho⟩
      | closed ho => exact ⟨_, ho⟩
  · by_cases hself : g = h
    · subst hself
      obtain rfl := mirrors.oneToOne.callable_right _ _ _ callable hi
      refine ⟨_, .closure { k with captured := k.captured.push ℓ }, by rw [hview, if_pos rfl],
        by simp [hlt], .closure ?_ ?_⟩
      · exact hholds.transfer (Heap.shared_replace hc hmutable) fun _ _ => trivial
      · simp only [Closure.capture, Array.toList_push]
        exact List.rel_append hcells (.cons hcell .nil)
    · obtain ⟨o, k', ho, hk', hembodies⟩ := mirrors.callables g i hi
      refine ⟨o, k', by rw [hview, if_neg hself, ho], ?_, hembodies.replace hc hmutable⟩
      rw [Array.getElem?_setIfInBounds_ne, hk']
      rintro rfl
      exact hself (mirrors.oneToOne.callable_left _ _ _ hi callable)
  · cases mirrors.cells g i hi with
    | opened ho hslot hmem => exact .opened (hnoclosure ho (by rintro ⟨⟩)) hslot hmem
    | closed ho hd hdenotes hoff =>
        exact .closed (hnoclosure ho (by rintro ⟨⟩)) hd (hdenotes.replace hc hmutable) hoff
  · obtain ⟨ho, hslot⟩ := mirrors.opened e he
    exact ⟨hnoclosure ho (by rintro ⟨⟩), hslot⟩
  · refine mirrors.stack.imp ?_
    rintro v ℓ ⟨d, hd, hdenotes⟩
    exact ⟨d, hd, hdenotes.replace hc hmutable⟩
  · refine mirrors.frames.imp fun fr a hframe => { hframe with entered := ?_ }
    obtain ⟨c', hc', heq⟩ := hframe.entered
    simp only [hview]
    split
    · rename_i hself
      rw [hself, hc] at hc'
      cases hc'
      exact ⟨_, rfl, heq⟩
    · exact ⟨c', hc', heq⟩
  · obtain ⟨name, d, hname, hd, hdenotes⟩ := mirrors.globals_right g v hv
    exact ⟨name, d, hnoclosure hname (by rintro ⟨⟩), hd, hdenotes.replace hc hmutable⟩
  · obtain ⟨g, v, hname, hv, hdenotes⟩ := mirrors.globals_left name d hd
    exact ⟨g, v, hnoclosure hname (by rintro ⟨⟩), hv, hdenotes.replace hc hmutable⟩

/-! ### Globals -/

/-- Setting a global. -/
theorem setGlobal (mirrors : Mirroring limit entries π m r) {name : String}
    (hname : m.heap.object? g = some (.string name)) (denotes : Denotes m.heap π v d) :
    Mirroring limit entries π { m with globals := m.globals.insert g v }
      { r with globals := fun other => if other = name then some d else r.globals other } := by
  refine { mirrors with globals_right := fun h w hw => ?_, globals_left := fun other e he => ?_ }
  · rw [Std.TreeMap.getElem?_insert] at hw
    split at hw
    · rename_i heq
      obtain rfl := Std.LawfulEqCmp.eq_of_compare heq
      cases hw
      exact ⟨name, d, hname, if_pos rfl, denotes⟩
    · rename_i hne
      obtain ⟨other, e, hother, he, hdenotes⟩ := mirrors.globals_right h w hw
      refine ⟨other, e, hother, ?_, hdenotes⟩
      simp only
      rw [if_neg, he]
      rintro rfl
      obtain rfl := mirrors.valid.distinct _ _ _ hother hname
      exact hne Std.ReflCmp.compare_self
  · simp only at he
    split at he
    · rename_i heq
      cases he
      exact ⟨g, v, heq ▸ hname, by simp, denotes⟩
    · rename_i hne
      obtain ⟨h, w, hother, hw, hdenotes⟩ := mirrors.globals_left other e he
      refine ⟨h, w, hother, ?_, hdenotes⟩
      rw [Std.TreeMap.getElem?_insert, if_neg, hw]
      intro heq
      obtain rfl := Std.LawfulEqCmp.eq_of_compare heq
      rw [hname] at hother
      cases hother
      exact hne rfl

end Mirroring

end Machine

end Lox
