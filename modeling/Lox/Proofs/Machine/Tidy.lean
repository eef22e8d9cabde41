import Lox.Proofs.Heap.History
import Lox.Proofs.Machine.Objects
import Lox.Proofs.Machine.Pervasive

/-!
# Machines that leave nothing behind

Nothing is assumed here of the code that runs, nor of the functions of the host: whatever a
machine executes, every open cell of its heap is one that it knows, closures have captured cells
and nothing else, and the call at the bottom starts at the bottom of the stack. Hence a machine
whose script ends, and a machine that raises a runtime error, is left with empty stacks and
without an open cell.

## Main definitions

* `Heap.Calm` — a change of the heap that opens no cell.
* `Machine.Tracked`, `Machine.Tidy` — the invariants.
* `Machine.Vacant` — a machine that is left with nothing.
* `Tidies` — an action that keeps a machine tidy.

## Main results

* `raise_vacates` — runtime errors.
* `Tidies.pervasive`, `execute_tidies` — actions and instructions.
* `step_tidies`, `run_tidies` — steps.
-/

namespace Lox

/-- An object that is no open cell, and has captured nothing. -/
def Object.Shut : Object → Prop
  | .cell (.opened _) => False
  | .closure c => c.cells = #[]
  | _ => True

namespace Heap

variable {heap heap' mid : Heap} {keep keep' : Handle → Prop} {roots : List Handle} {h : Handle}
  {o : Object} {text : String}

/-- A handle that refers to a cell, open or closed. -/
def IsCell (heap : Heap) (h : Handle) : Prop := ∃ state, heap.object? h = some (.cell state)

/-- A change of the heap that keeps it in order, marks nothing and opens no cell. The cells of a
given set are still there. -/
structure Calm (heap : Heap) (keep : Handle → Prop) (heap' : Heap) : Prop where
  orderly : heap'.Orderly
  gray : heap.gray = [] → heap'.gray = []
  cells : ∀ h slot, heap'.object? h = some (.cell (.opened slot)) →
    heap.object? h = some (.cell (.opened slot))
  wired : heap.Wired → heap'.Wired
  kept : ∀ h, keep h → heap.IsCell h → heap'.IsCell h

/-- Doing nothing is calm. -/
theorem Calm.refl (orderly : heap.Orderly) : heap.Calm keep heap :=
  ⟨orderly, id, fun _ _ => id, id, fun _ _ => id⟩

/-- Two calm changes are calm. -/
theorem Calm.trans {last : Heap} (first : heap.Calm keep mid) (second : mid.Calm keep last) :
    heap.Calm keep last :=
  ⟨second.orderly, fun hgray => second.gray (first.gray hgray),
    fun h slot hcell => first.cells h slot (second.cells h slot hcell),
    fun wired => second.wired (first.wired wired),
    fun h hkeep hcell => second.kept h hkeep (first.kept h hkeep hcell)⟩

/-- What keeps many cells keeps few. -/
theorem Calm.mono (calm : heap.Calm keep heap') (fewer : ∀ h, keep' h → keep h) :
    heap.Calm keep' heap' :=
  { calm with kept := fun h hkeep => calm.kept h (fewer h hkeep) }

/-- A collection is calm. -/
theorem Collected.calm (collected : Collected heap roots heap') : heap.Calm (· ∈ roots) heap' :=
  ⟨collected.orderly, fun _ => collected.gray,
    fun _ _ hcell => collected.pruned.old _ _ hcell, collected.wired,
    fun _ hroot ⟨state, hcell⟩ => ⟨state, collected.pruned.kept _ _ hcell (.root hroot)⟩⟩

/-- An allocation leaves no mark. -/
theorem Allocated.gray (allocated : Allocated heap roots o h heap') (gray : heap.gray = []) :
    heap'.gray = [] := by
  obtain ⟨mid, hmid, hplaced⟩ := allocated
  rw [hplaced.gray, List.eq_nil_iff_forall_not_mem]
  intro g hg
  exact List.not_mem_nil (gray ▸ hmid.gray g hg)

/-- An object that has captured nothing finds a place in a wired heap. -/
theorem Allocated.wired (allocated : Allocated heap roots o h heap') (wired : heap.Wired)
    (bare : ∀ c, o = .closure c → c.cells = #[]) : heap'.Wired := by
  obtain ⟨mid, hmid, hplaced⟩ := allocated
  intro f c hc g hg
  rw [hplaced.object?_eq] at hc
  split at hc
  · rw [bare c (Option.some.inj hc)] at hg
    cases hg
  · obtain ⟨state, hstate⟩ := hmid.wired wired f c hc g hg
    exact ⟨state, hplaced.object?_of_object? hstate⟩

/-- Cells that are roots of an allocation are still there. -/
theorem Allocated.isCell (allocated : Allocated heap roots o h heap') {g : Handle}
    (root : g ∈ roots) (cell : heap.IsCell g) : heap'.IsCell g := by
  obtain ⟨state, hstate⟩ := cell
  exact ⟨state, allocated.kept hstate (.root root)⟩

/-- Allocating an object that is shut is calm. -/
theorem Allocated.calm (allocated : Allocated heap roots o h heap') (shut : o.Shut) :
    heap.Calm (· ∈ roots) heap' := by
  refine ⟨allocated.orderly, allocated.gray, fun g slot hcell => ?_,
    fun wired => allocated.wired wired ?_, fun g hroot hcell => allocated.isCell hroot hcell⟩
  · rcases allocated.old hcell with ⟨-, heq⟩ | ⟨-, hold⟩
    · rw [← heq] at shut
      exact shut.elim
    · exact hold
  · rintro c rfl
    exact shut

/-- Interning is calm. -/
theorem InternedAs.calm (interned : InternedAs heap roots text h heap') (orderly : heap.Orderly) :
    heap.Calm (· ∈ roots) heap' := by
  cases interned with
  | found => exact .refl orderly
  | made hnone hallocated =>
      have hcalm := hallocated.calm (o := .string text) trivial
      exact { hcalm with
        orderly := (InternedAs.made hnone hallocated).orderly orderly }

/-- Changing a cell or a closure is calm, if it opens no cell and captures nothing but cells. -/
theorem Calm.replace {old : Object} (orderly : heap.Orderly) (hold : heap.object? h = some old)
    (kind : o.kind = old.kind) (shut : ∀ slot, o ≠ .cell (.opened slot))
    (captured : ∀ c, o = .closure c → heap.Wired → ∀ g ∈ c.cells.toList, heap.IsCell g) :
    heap.Calm keep (heap.replace h o) := by
  have view : ∀ g, (heap.replace h o).object? g = if g = h then some o else heap.object? g :=
    fun g => object?_replace ⟨old, hold⟩
  have hcell : ∀ g, heap.IsCell g → (heap.replace h o).IsCell g := by
    rintro g ⟨state, hstate⟩
    rw [IsCell, view]
    split
    · rename_i heq
      subst heq
      obtain rfl := Option.some.inj (hold.symm.trans hstate)
      cases o <;> cases kind
      exact ⟨_, rfl⟩
    · exact ⟨state, hstate⟩
  refine ⟨orderly.replace ⟨old, hold⟩ o, id, fun g slot hopened => ?_,
    fun wired f c hc g hg => hcell g ?_, fun g _ => hcell g⟩
  · rw [view] at hopened
    split at hopened
    · exact absurd (Option.some.inj hopened) (shut slot)
    · exact hopened
  · rw [view] at hc
    split at hc
    · exact captured c (Option.some.inj hc) wired g hg
    · exact wired f c hc g hg

end Heap

namespace Machine

variable {m m' : Machine} {h : Handle} {α β : Type}

/-! ### Invariants -/

/-- The heap is in order, nothing is marked, and the machine knows all open cells. It keeps
cells only, sorted by their slots, and closures have captured cells only. -/
structure Tracked (m : Machine) : Prop where
  orderly : m.heap.Orderly
  gray : m.heap.gray = []
  cells : ∀ h slot, m.heap.object? h = some (.cell (.opened slot)) → (slot, h) ∈ m.openCells.entries
  known : ∀ e ∈ m.openCells.entries, m.heap.IsCell e.2
  sorted : m.openCells.entries.Pairwise fun e e' => e.1 < e'.1
  wired : m.heap.Wired

/-- A tracked machine whose outermost call starts at the bottom of the stack. -/
structure Tidy (m : Machine) : Prop extends Tracked m where
  bottom : ∃ fr, m.frames.getLast? = some fr ∧ fr.slots = 0

/-- A machine without calls, values and open cells. -/
structure Vacant (m : Machine) : Prop where
  stack : m.stack = #[]
  frames : m.frames = []
  openCells : m.openCells = {}
  orderly : m.heap.Orderly
  gray : m.heap.gray = []
  shut : ∀ h slot, m.heap.object? h ≠ some (.cell (.opened slot))
  wired : m.heap.Wired

/-- A vacant machine is tracked. -/
theorem Vacant.tracked (vacant : m.Vacant) : m.Tracked :=
  ⟨vacant.orderly, vacant.gray, fun h slot hcell => absurd hcell (vacant.shut h slot),
    by simp [vacant.openCells], by simp [vacant.openCells], vacant.wired⟩

/-- A calm change that keeps the open cells keeps a machine tracked. -/
theorem Tracked.calm (tracked : m.Tracked) {heap : Heap} {keep : Handle → Prop}
    (calm : m.heap.Calm keep heap) (kept : ∀ e ∈ m.openCells.entries, keep e.2) :
    ({ m with heap } : Machine).Tracked :=
  ⟨calm.orderly, calm.gray tracked.gray,
    fun h slot hcell => tracked.cells h slot (calm.cells h slot hcell),
    fun e he => calm.kept e.2 (kept e he) (tracked.known e he), tracked.sorted,
    calm.wired tracked.wired⟩

/-- The roots of a machine hold its open cells. -/
theorem entry_mem_rooted {e : Nat × Handle} (entry : e ∈ m.openCells.entries) :
    e.2 ∈ m.rooted :=
  mem_rooted.mpr (.inr (.inr (.inl ⟨e, entry, rfl⟩)))

/-- A calm change that keeps the open cells keeps a machine tidy. -/
theorem Tidy.calm (tidy : m.Tidy) {heap : Heap} {keep : Handle → Prop}
    (calm : m.heap.Calm keep heap) (kept : ∀ e ∈ m.openCells.entries, keep e.2) :
    ({ m with heap } : Machine).Tidy :=
  { tidy.toTracked.calm calm kept with bottom := tidy.bottom }

/-- A calm change keeps a machine vacant. -/
theorem Vacant.calm (vacant : m.Vacant) {heap : Heap} {keep : Handle → Prop}
    (calm : m.heap.Calm keep heap) : ({ m with heap } : Machine).Vacant :=
  ⟨vacant.stack, vacant.frames, vacant.openCells, calm.orderly, calm.gray vacant.gray,
    fun h slot hcell => vacant.shut h slot (calm.cells h slot hcell), calm.wired vacant.wired⟩

/-- An end with an answer, with a vacant machine, or with a fault. -/
inductive Leaves (ok : α → Machine → Prop) : EStateM.Result Interruption Machine α → Prop
  | ok {a : α} {m : Machine} : ok a m → Leaves ok (.ok a m)
  | raised {e : RuntimeError} {m : Machine} : m.Vacant → Leaves ok (.error (.raised e) m)
  | fault {f : Fault} {m : Machine} : Leaves ok (.error (.fault f) m)

/-- A sequence ends as its parts do. -/
theorem Leaves.bind {x : Action α} {f : α → Action β} {ok : α → Machine → Prop}
    {ok' : β → Machine → Prop} (first : Leaves ok (x m))
    (rest : ∀ a m', ok a m' → Leaves ok' (f a m')) : Leaves ok' ((x >>= f) m) := by
  simp only [Bind.bind, EStateM.bind]
  revert first
  generalize x m = result
  intro first
  cases first with
  | ok h => exact rest _ _ h
  | raised hvacant => exact .raised hvacant
  | fault => exact .fault

/-! ### Closing cells -/

/-- Setting the state of a cell that is there. -/
theorem setCell_cases (h : Handle) (state : Cell) (m : Machine) :
    (∃ old, m.heap.object? h = some (.cell old) ∧ onHeap (Heap.setCell h state) m =
      .ok () { m with heap := m.heap.replace h (.cell state) }) ∨
    ∃ f, onHeap (Heap.setCell h state) m = .error (.fault f) m := by
  unfold onHeap Heap.setCell
  cases hcell : m.heap.cell h with
  | ok old => exact .inl ⟨old, Heap.cell_eq_ok_iff.mp hcell, rfl⟩
  | error f => exact .inr ⟨f, rfl⟩

/-- Closing a cell is calm. -/
theorem closeCell_leaves (slot : Nat) (cell : Handle) (orderly : m.heap.Orderly) :
    Leaves (fun _ m' => m' = { m with heap := m'.heap } ∧
        (∀ keep, m.heap.Calm keep m'.heap) ∧
        ∀ h slot, m'.heap.object? h = some (.cell (.opened slot)) → h ≠ cell)
      (closeCell slot cell m) := by
  have hread : slotValue slot m = (demand m.stack[slot]? : Action Value) m :=
    bind_of_ok (get_apply m)
  cases hv : m.stack[slot]? with
  | none =>
      have hslot : slotValue slot m = .error (.fault .outOfRange) m := by
        rw [hread, hv]
        rfl
      rw [closeCell, bind_of_error hslot]
      exact .fault
  | some v =>
      have hslot : slotValue slot m = .ok v m := by
        rw [hread, hv]
        rfl
      rw [closeCell, bind_of_ok hslot]
      rcases setCell_cases cell (.closed v) m with ⟨old, hold, hrun⟩ | ⟨f, hrun⟩
      · rw [hrun]
        refine .ok ⟨rfl, fun keep => .replace orderly hold rfl (by simp) (by simp), ?_⟩
        rintro h slot hcell rfl
        rw [Heap.object?_replace ⟨_, hold⟩, if_pos rfl] at hcell
        cases hcell
      · rw [hrun]
        exact .fault

/-- Closing cells one by one. -/
theorem closing_leaves (closing : List (Nat × Handle)) {kept : List (Nat × Handle)}
    (orderly : m.heap.Orderly)
    (cells : ∀ h slot, m.heap.object? h = some (.cell (.opened slot)) →
      (slot, h) ∈ closing ++ kept) :
    Leaves (fun _ m' => m' = { m with heap := m'.heap } ∧ (∀ keep, m.heap.Calm keep m'.heap) ∧
        ∀ h slot, m'.heap.object? h = some (.cell (.opened slot)) → (slot, h) ∈ kept)
      ((closing.forM fun (slot, cell) => closeCell slot cell : Action Unit) m) := by
  induction closing generalizing m with
  | nil => exact .ok ⟨rfl, fun _ => .refl orderly, cells⟩
  | cons e closing ih =>
      obtain ⟨slot, cell⟩ := e
      refine (closeCell_leaves slot cell orderly).bind ?_
      rintro _ m' ⟨heq, hcalm, hclosed⟩
      have hcells : ∀ g slot', m'.heap.object? g = some (.cell (.opened slot')) →
          (slot', g) ∈ closing ++ kept := by
        intro g slot' hcell
        rcases List.mem_cons.mp (cells g slot' ((hcalm fun _ => True).cells g slot' hcell)) with
          hentry | hmem
        · exact absurd (congrArg Prod.snd hentry) (hclosed g slot' hcell)
        · exact hmem
      have hrest := ih (hcalm fun _ => True).orderly hcells
      revert hrest
      generalize (closing.forM _ : Action Unit) m' = result
      rintro (⟨heq', hcalm', hcells'⟩ | hvacant | -)
      · refine .ok ⟨?_, fun keep => (hcalm keep).trans (hcalm' keep), hcells'⟩
        rw [heq', heq]
      · exact .raised hvacant
      · exact .fault

/-- Closing all cells from a slot on leaves those below it. -/
theorem closeFrom_leaves (tracked : m.Tracked) (slot : Nat) :
    Leaves (fun _ m' => m'.Tracked ∧ (∀ e ∈ m'.openCells.entries, e.1 < slot) ∧
      m' = { m with heap := m'.heap, openCells := m'.openCells }) (closeFrom slot m) := by
  have hcells : ∀ h s, m.heap.object? h = some (.cell (.opened s)) →
      (s, h) ∈ m.openCells.entries.dropWhile (·.1 < slot) ++
        m.openCells.entries.takeWhile (·.1 < slot) := fun h s hcell => by
    have := tracked.cells h s hcell
    rw [← List.takeWhile_append_dropWhile (p := fun e : Nat × Handle => decide (e.1 < slot))
      (l := m.openCells.entries), List.mem_append] at this
    exact List.mem_append.mpr this.symm
  have hfewer : (m.openCells.entries.takeWhile fun e => decide (e.1 < slot)).Sublist
      m.openCells.entries := List.takeWhile_sublist _
  have hkept : ∀ e ∈ m.openCells.entries.takeWhile (·.1 < slot), e.1 < slot := fun e he => by
    simpa using List.mem_takeWhile_imp (p := fun e : Nat × Handle => decide (e.1 < slot)) he
  have hclosing := closing_leaves
    (m := { m with openCells := ⟨m.openCells.entries.takeWhile (·.1 < slot)⟩ }) _
    tracked.orderly hcells
  rw [closeFrom, bind_of_ok (get_apply m)]
  simp only [OpenCells.splitFrom]
  rw [bind_of_ok (modify_apply _ m)]
  revert hclosing
  generalize (List.forM _ _ : Action Unit) _ = result
  rintro (⟨heq, hcalm, hcells'⟩ | hvacant | -)
  · have hall := hcalm fun _ => True
    refine .ok
      ⟨⟨hall.orderly, hall.gray tracked.gray, ?_, ?_, ?_, hall.wired tracked.wired⟩, ?_, ?_⟩
      <;> rw [heq]
    · exact hcells'
    · exact fun e he => hall.kept e.2 trivial (tracked.known e (hfewer.mem he))
    · exact tracked.sorted.sublist hfewer
    · exact hkept
  · exact .raised hvacant
  · exact .fault

/-- A question either has an answer or faults. -/
theorem ask_cases (question : Machine → Except Fault α) (m : Machine) :
    (∃ a, question m = .ok a ∧ ask question m = .ok a m) ∨
    ∃ f, ask question m = .error (.fault f) m := by
  unfold ask
  cases question m with
  | ok a => exact .inl ⟨a, rfl, rfl⟩
  | error f => exact .inr ⟨f, rfl⟩

/-- A runtime error leaves nothing behind. -/
theorem raise_vacates {ok : α → Machine → Prop} (tracked : m.Tracked) (cause : Cause) :
    Leaves ok (raise cause m) := by
  rw [raise]
  rcases ask_cases (fun m => m.frames.mapM (traceLine m.heap)) m with
    ⟨trace, -, htrace⟩ | ⟨f, htrace⟩
  swap
  · rw [bind_of_error htrace]
    exact .fault
  rw [bind_of_ok htrace]
  refine Leaves.bind (show Leaves (fun _ m' => m'.Vacant) _ from ?_) fun _ _ hvacant =>
    .raised hvacant
  rw [reset]
  refine (closeFrom_leaves tracked 0).bind ?_
  rintro _ m' ⟨htracked, hkept, -⟩
  have hnone : m'.openCells = {} := by
    refine congrArg OpenCells.mk (List.eq_nil_iff_forall_not_mem.mpr fun e he => ?_)
    exact absurd (hkept e he) (Nat.not_lt_zero _)
  refine .ok ⟨rfl, rfl, hnone, htracked.orderly, htracked.gray, fun h slot hcell => ?_,
    htracked.wired⟩
  have := htracked.cells h slot hcell
  rw [hnone] at this
  cases this

/-! ### Actions -/

/-- An action that keeps a machine tidy, however it ends. -/
def Tidies (x : Action α) : Prop := ∀ m, m.Tidy → Leaves (fun _ m' => m'.Tidy) (x m)

namespace Tidies

theorem pure (a : α) : Tidies (Pure.pure a : Action α) := fun _ tidy => .ok tidy

theorem bind {x : Action α} {f : α → Action β} (first : Tidies x) (rest : ∀ a, Tidies (f a)) :
    Tidies (x >>= f) :=
  fun m tidy => (first m tidy).bind fun a m' tidy' => rest a m' tidy'

theorem stop (f : Fault) : Tidies (stop f : Action α) := fun _ _ => .fault

theorem raise (cause : Cause) : Tidies (raise cause : Action α) :=
  fun _ tidy => raise_vacates tidy.toTracked cause

/-- Looking at the machine. -/
theorem read {f : Machine → Action α} (rest : ∀ m, Tidies (f m)) : Tidies (get >>= f) :=
  fun m tidy => rest m m tidy

/-- Changing the machine. -/
theorem change {f : Machine → Machine} (keeps : ∀ m, m.Tidy → (f m).Tidy) :
    Tidies (modify f) := fun m tidy => .ok (keeps m tidy)

theorem ask (question : Machine → Except Fault α) : Tidies (ask question) := by
  intro m tidy
  rcases ask_cases question m with ⟨a, -, hask⟩ | ⟨f, hask⟩ <;> rw [hask]
  · exact .ok tidy
  · exact .fault

theorem demand (o : Option α) : Tidies (demand o) := by
  cases o with
  | none => exact .stop _
  | some a => exact .pure a

/-- An operation of the heap that is calm. -/
theorem withRoots {operation : List Handle → HeapM α}
    (calm : ∀ roots heap a heap', heap.Orderly → operation roots heap = .ok a heap' →
      heap.Calm (· ∈ roots) heap') : Tidies (withRoots operation) := by
  intro m tidy
  unfold Machine.withRoots
  cases hrun : operation (roots m.stack m.frames m.openCells m.globals) m.heap with
  | ok a heap =>
      exact .ok (tidy.calm (calm _ _ a heap tidy.orderly hrun) fun _ he => entry_mem_rooted he)
  | error f heap => exact .fault

/-- An operation on an object that is calm. -/
theorem onHeap {operation : HeapM α}
    (calm : ∀ heap a heap', heap.Orderly → operation heap = .ok a heap' →
      heap.Calm (fun _ => True) heap') :
    Tidies (onHeap operation) := by
  intro m tidy
  unfold Machine.onHeap
  cases hrun : operation m.heap with
  | ok a heap => exact .ok (tidy.calm (calm _ a heap tidy.orderly hrun) fun _ _ => trivial)
  | error f heap => exact .fault

end Tidies

/-- The stack, the globals and the printout do not matter. -/
theorem Tidy.congr (tidy : m.Tidy) (heap : m'.heap = m.heap) (cells : m'.openCells = m.openCells)
    (frames : m'.frames = m.frames) : m'.Tidy :=
  ⟨⟨heap ▸ tidy.orderly, heap ▸ tidy.gray, by rw [heap, cells]; exact tidy.cells,
    by rw [heap, cells]; exact tidy.known, cells ▸ tidy.sorted, heap ▸ tidy.wired⟩,
    frames ▸ tidy.bottom⟩

theorem push_tidies (v : Value) : Tidies (push v) := by
  intro m tidy
  unfold push
  split
  · exact raise_vacates tidy.toTracked _
  · exact .ok (tidy.congr rfl rfl rfl)

theorem closeFrom_tidies (slot : Nat) : Tidies (closeFrom slot) := by
  intro m tidy
  have hclose := closeFrom_leaves tidy.toTracked slot
  revert hclose
  generalize closeFrom slot m = result
  rintro (⟨htracked, -, heq⟩ | hvacant | -)
  · refine .ok ⟨htracked, ?_⟩
    rw [heq]
    exact tidy.bottom
  · exact .raised hvacant
  · exact .fault

/-- An action that gives a cell to the rest of an action, and keeps the machine tidy. -/
def Yields (x : Action Handle) : Prop :=
  ∀ m, m.Tidy → Leaves (fun h m' => m'.Tidy ∧ m'.heap.IsCell h) (x m)

/-- A new open cell is known at once. -/
theorem openCell_yields (slot : Nat) : Yields (openCell slot) := by
  intro m tidy
  rw [openCell, bind_of_ok (get_apply m)]
  cases hfind : m.openCells.find? slot with
  | some cell => exact .ok ⟨tidy, tidy.known _ (OpenCells.mem_of_find? hfind)⟩
  | none =>
      refine Leaves.bind (show Leaves (fun h m' => m' = { m with heap := m'.heap } ∧
        Heap.Allocated m.heap m.rooted (.cell (.opened slot)) h m'.heap) _ from ?_) ?_
      · unfold allocate withRoots
        cases hrun : Heap.allocate (.cell (.opened slot))
            (roots m.stack m.frames m.openCells m.globals) m.heap with
        | error f heap => exact .fault
        | ok h heap => exact .ok ⟨rfl, Heap.allocated_of_ok tidy.orderly hrun⟩
      rintro h m' ⟨heq, hallocated⟩
      generalize m'.heap = heap at heq hallocated
      subst heq
      have hself : heap.IsCell h := ⟨_, hallocated.object?_self⟩
      have hentries : ∀ e, e ∈ OpenCells.insertEntry slot h m.openCells.entries ↔
          e ∈ (slot, h) :: m.openCells.entries := fun _ =>
        (OpenCells.insertEntry_perm h (OpenCells.absent_of_find? hfind)).mem_iff
      refine .ok ⟨⟨⟨hallocated.orderly, hallocated.gray tidy.gray, fun g s hcell => ?_,
        fun e he => ?_, OpenCells.insertEntry_sorted h tidy.sorted,
        hallocated.wired tidy.wired (by simp)⟩, tidy.bottom⟩, hself⟩
      · refine (hentries _).mpr ?_
        rcases hallocated.old hcell with ⟨rfl, heq⟩ | ⟨-, hold⟩
        · cases heq
          exact List.mem_cons_self ..
        · exact List.mem_cons_of_mem _ (tidy.cells g s hold)
      · rcases List.mem_cons.mp ((hentries e).mp he) with rfl | he
        · exact hself
        · exact hallocated.isCell (entry_mem_rooted he) (tidy.known e he)

/-! ### Instructions -/

theorem setIp_tidies (ip : Nat) : Tidies (setIp ip) := by
  refine .change fun m tidy => ?_
  cases hframes : m.frames with
  | nil => exact tidy
  | cons fr outer =>
      refine { tidy.toTracked with bottom := ?_ }
      obtain ⟨bottom, hlast, hslots⟩ := tidy.bottom
      rw [hframes] at hlast
      cases outer with
      | nil =>
          obtain rfl : fr = bottom := by simpa using hlast
          exact ⟨_, rfl, hslots⟩
      | cons next outer =>
          rw [List.getLast?_cons_cons] at hlast ⊢
          exact ⟨bottom, hlast, hslots⟩

/-- What a call has captured is a cell. -/
theorem capturedCell_yields (index : Nat) : Yields (capturedCell index) := by
  intro m tidy
  unfold capturedCell
  have hframe : Tidies frame := .read fun _ => .demand _
  refine (hframe m tidy).bind ?_
  intro fr m' tidy'
  rcases ask_cases (·.heap.closure fr.closure) m' with ⟨c, hc, hask⟩ | ⟨f, hask⟩
  swap
  · rw [bind_of_error hask]
    exact .fault
  rw [bind_of_ok hask]
  cases hcell : c.cells[index]? with
  | none => exact .fault
  | some cell =>
      obtain ⟨hindex, rfl⟩ := Array.getElem?_eq_some_iff.mp hcell
      exact .ok ⟨tidy', tidy'.wired _ c (Heap.closure_eq_ok_iff.mp hc) _ (by simp)⟩

theorem setCell_tidies (cell : Handle) (v : Value) :
    Tidies (onHeap (Heap.setCell cell (.closed v))) :=
  .onHeap fun heap _ heap' orderly run => by
    unfold Heap.setCell at run
    split at run
    · cases run
    · rename_i hcell
      cases run
      exact .replace orderly (Heap.cell_eq_ok_iff.mp hcell) rfl (by simp) (by simp)

theorem concat_tidies (g h : Handle) : Tidies (concat g h) :=
  .withRoots fun roots heap a heap' orderly run => by
    obtain ⟨text, run⟩ := Heap.intern_of_concat run
    exact (Heap.internedAs_of_ok orderly run).calm orderly

/-- A call that is not the outermost one leaves the outermost one alone. -/
theorem enter_tidies (fr : Frame) :
    Tidies (modify fun m => { m with frames := fr :: m.frames }) := by
  refine .change fun m tidy => ?_
  obtain ⟨bottom, hlast, hslots⟩ := tidy.bottom
  refine { tidy.toTracked with bottom := ⟨bottom, ?_, hslots⟩ }
  cases hframes : m.frames with
  | nil => simp [hframes] at hlast
  | cons outer others => rw [List.getLast?_cons_cons, ← hframes, hlast]

/-- A closure may capture a cell. -/
theorem Yields.capture {x : Action Handle} (yields : Yields x) (closure : Handle) :
    Tidies (x >>= fun cell => onHeap (Heap.capture closure cell)) := by
  refine fun m tidy => (yields m tidy).bind ?_
  rintro cell m' ⟨tidy', hcell⟩
  unfold Machine.onHeap Heap.capture
  cases hclosure : m'.heap.closure closure with
  | error f => exact .fault
  | ok c =>
      have hold := Heap.closure_eq_ok_iff.mp hclosure
      have hcaptured : ∀ c', Object.closure (c.capture cell) = .closure c' →
          m'.heap.Wired → ∀ g ∈ c'.cells.toList, m'.heap.IsCell g := by
        intro _ heq wired g hg
        obtain rfl := Object.closure.inj heq
        rcases List.mem_append.mp (Array.toList_push ▸ hg) with hg | hg
        · exact wired closure c hold g hg
        · exact List.mem_singleton.mp hg ▸ hcell
      have hcalm : m'.heap.Calm (fun _ => True)
          (m'.heap.replace closure (.closure (c.capture cell))) :=
        .replace tidy'.orderly hold rfl (by simp) hcaptured
      have htidy := tidy'.calm hcalm fun _ _ => trivial
      exact .ok htidy

theorem allocateClosure_tidies (function : Handle) : Tidies (allocateClosure function) :=
  .withRoots fun roots heap a heap' orderly run => by
    obtain ⟨c, run⟩ := Heap.allocate_of_allocateClosure run
    exact (Heap.allocated_of_ok orderly run).calm rfl

/-- All actions but the end of a call keep a machine tidy. -/
theorem Tidies.pervasive : Pervasive fun _ => Tidies where
  pure := .pure
  stop := .stop
  bind := .bind
  read _ := .read
  ask _ := .ask _
  raise := .raise
  push := push_tidies
  restack _ := .change fun _ tidy => tidy.congr rfl rfl rfl
  countHostCall := .change fun _ tidy => tidy.congr rfl rfl rfl
  setIp := setIp_tidies
  enter := enter_tidies
  closeFrom := closeFrom_tidies
  setCell := setCell_tidies
  captureLocal closure slot := (openCell_yields slot).capture closure
  captureCaptured closure index := (capturedCell_yields index).capture closure
  concat := concat_tidies
  allocateClosure := allocateClosure_tidies

/-- Every instruction keeps a machine tidy. -/
theorem execute_tidies (op : OpCode) (operand : Nat) : Tidies (execute op operand) :=
  Tidies.pervasive.execute operand
    (fun _ => Tidies.pervasive.print fun _ => .change fun _ tidy => tidy.congr rfl rfl rfl)
    fun _ _ _ => .change fun _ tidy => tidy.congr rfl rfl rfl

/-! ### Steps -/

/-- How a step leaves a machine. -/
def Left : Status → Machine → Prop
  | .running, m => m.Tidy
  | .halted, m => m.Vacant

/-- The end of a call leaves a tidy machine, and the end of the script a vacant one. -/
theorem giveBack_tidies (tidy : m.Tidy) : Leaves Left (giveBack m) := by
  obtain ⟨bottom, hlast, hslots⟩ := tidy.bottom
  rw [giveBack, bind_of_ok (pop_apply m), bind_of_ok (get_apply _)]
  cases hframes : m.frames with
  | nil => simp [hframes] at hlast
  | cons fr outer =>
      rw [hframes] at hlast
      simp only
      rw [bind_of_ok (modify_apply _ _)]
      have htracked : Tracked { m with stack := m.stack.pop, frames := outer } :=
        { tidy.toTracked with }
      refine (closeFrom_leaves htracked fr.slots).bind ?_
      rintro _ m' ⟨htracked', hkept, heq⟩
      rw [truncate, bind_of_ok (modify_apply _ _)]
      cases outer with
      | nil =>
          obtain rfl : fr = bottom := by simpa using hlast
          rw [hslots] at hkept ⊢
          have hnone : m'.openCells = {} := by
            refine congrArg OpenCells.mk (List.eq_nil_iff_forall_not_mem.mpr fun e he => ?_)
            exact absurd (hkept e he) (Nat.not_lt_zero _)
          refine .ok ⟨by simp, by rw [heq], hnone, htracked'.orderly, htracked'.gray,
            fun h slot hcell => ?_, htracked'.wired⟩
          have := htracked'.cells h slot hcell
          rw [hnone] at this
          cases this
      | cons next outer =>
          rw [List.getLast?_cons_cons] at hlast
          have htidy : Tidy { m' with stack := m'.stack.shrink fr.slots } :=
            { htracked' with bottom := ⟨bottom, by rw [heq]; exact hlast, hslots⟩ }
          refine (push_tidies _ _ htidy).bind ?_
          rintro _ m'' htidy''
          exact .ok htidy''

/-- One step of a tidy machine. -/
theorem step_tidies (tidy : m.Tidy) : Leaves Left (step m) := by
  refine (Tidies.pervasive.fetch m tidy).bind ?_
  rintro ⟨op, operand⟩ m' tidy'
  by_cases hop : op = .giveBack
  · simp only [if_pos hop]
    exact giveBack_tidies tidy'
  · simp only [if_neg hop]
    refine (execute_tidies op operand m' tidy').bind ?_
    rintro _ m'' tidy''
    exact .ok tidy''

/-- Any number of steps of a tidy machine. -/
theorem run_tidies (tidy : m.Tidy) (budget : Nat) : Leaves Left (run budget m) := by
  induction budget generalizing m with
  | zero => exact .ok tidy
  | succ budget ih =>
      refine (step_tidies tidy).bind ?_
      rintro (_ | _) m' hleft
      · exact ih hleft
      · exact .ok hleft

end Machine

end Lox
