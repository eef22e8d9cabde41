import Lox.Proofs.Machine.Tidy

/-!
# What instructions leave alone

An instruction allocates objects, changes the state of cells, lets closures capture cells, and
moves values and calls around. A relation between machines that survives each of these survives
every instruction but the two that set globals.

## Main definitions

* `Machine.Lasting` — a relation that survives what instructions do to the heap.
* `Machine.Conserves` — an action that leaves a machine that is related to the one before.

## Main results

* `Lasting.execute`, `Lasting.giveBack`, `Lasting.step`.
-/

namespace Lox.Machine

variable {R : Machine → Machine → Prop} {α β : Type}

/-- A relation between a machine and a later one that survives whatever happens to the stack, the
calls, the open cells and the printout, and the changes that instructions make to the heap. -/
structure Lasting (R : Machine → Machine → Prop) : Prop where
  trans {m mid m' : Machine} : R m mid → R mid m' → R m m'
  elsewhere {m m' : Machine} : m'.heap = m.heap → m'.globals = m.globals → R m m'
  intern {m : Machine} {text : String} {h : Handle} {heap : Heap} :
    Heap.intern text m.rooted m.heap = .ok h heap → R m { m with heap }
  allocate {m : Machine} {o : Object} {h : Handle} {heap : Heap} : (∀ text, o ≠ .string text) →
    Heap.allocate o m.rooted m.heap = .ok h heap → R m { m with heap }
  replace {m : Machine} {h : Handle} {old new : Object} : m.heap.object? h = some old →
    old.kind = .cell ∨ old.kind = .closure → new.kind = old.kind →
      R m { m with heap := m.heap.replace h new }

/-- A run that answers or raises a runtime error leaves a machine behind. -/
inductive Ended : EStateM.Result Interruption Machine α → Machine → Prop
  | ok {a : α} {m : Machine} : Ended (.ok a m) m
  | raised {e : RuntimeError} {m : Machine} : Ended (.error (.raised e) m) m

/-- A sequence ends where its second part does, unless its first part raises an error. -/
theorem Ended.of_bind {x : Action α} {f : α → Action β} {m m' : Machine}
    (ended : Ended ((x >>= f) m) m') :
    (∃ e, x m = .error (.raised e) m') ∨ ∃ a mid, x m = .ok a mid ∧ Ended (f a mid) m' := by
  cases hx : x m with
  | ok a mid =>
      rw [bind_of_ok hx] at ended
      exact .inr ⟨a, mid, rfl, ended⟩
  | error i mid =>
      rw [bind_of_error hx] at ended
      cases ended
      exact .inl ⟨_, rfl⟩

/-- An action that leaves a machine that is related to the one before. -/
def Conserves (R : Machine → Machine → Prop) (x : Action α) : Prop :=
  ∀ m m', Ended (x m) m' → R m m'

/-! ### Rules -/

namespace Conserves

theorem stop (f : Fault) : Conserves R (stop f : Action α) := fun _ _ ended => by
  cases ended

/-- Looking at the machine. -/
theorem read {f : Machine → Action α} (rest : ∀ m, Conserves R (f m)) :
    Conserves R (get >>= f) := fun m => rest m m

/-- An operation of the heap that is given the roots. -/
theorem withRoots {operation : List Handle → HeapM α}
    (each : ∀ {m : Machine} {a heap},
      operation m.rooted m.heap = .ok a heap → R m { m with heap }) :
    Conserves R (Machine.withRoots operation) := by
  intro m m' ended
  unfold Machine.withRoots at ended
  split at ended
  · rename_i hoperation
    cases ended
    exact each hoperation
  · cases ended

end Conserves

namespace Lasting

variable (lasting : Lasting R)
include lasting

theorem pure (a : α) : Conserves R (Pure.pure a : Action α) := fun _ _ ended => by
  cases ended
  exact lasting.elsewhere rfl rfl

theorem bind {x : Action α} {f : α → Action β} (first : Conserves R x)
    (rest : ∀ a, Conserves R (f a)) : Conserves R (x >>= f) := by
  intro m m' ended
  rcases ended.of_bind with ⟨e, hx⟩ | ⟨a, mid, hx, ended⟩
  · exact first m m' (hx ▸ .raised)
  · exact lasting.trans (first m mid (hx ▸ .ok)) (rest a mid m' ended)

/-- Changing the machine, but not its heap and its globals. -/
theorem change {f : Machine → Machine} (heap : ∀ m, (f m).heap = m.heap)
    (globals : ∀ m, (f m).globals = m.globals) : Conserves R (modify f) := by
  intro m m' ended
  cases ended
  exact lasting.elsewhere (heap m) (globals m)

theorem ask (question : Machine → Except Fault α) : Conserves R (Machine.ask question) := by
  intro m m' ended
  rcases ask_cases question m with ⟨b, -, hask⟩ | ⟨f, hask⟩ <;> rw [hask] at ended <;> cases ended
  exact lasting.elsewhere rfl rfl

theorem demand (o : Option α) : Conserves R (Machine.demand o) := by
  cases o with
  | none => exact .stop _
  | some a => exact lasting.pure a

theorem setCell (cell : Handle) (state : Cell) :
    Conserves R (onHeap (Heap.setCell cell state)) := by
  intro m m' ended
  rcases setCell_cases cell state m with ⟨old, hold, hok⟩ | ⟨f, herror⟩
  · rw [hok] at ended
    cases ended
    exact lasting.replace hold (.inl rfl) rfl
  · rw [herror] at ended
    cases ended

theorem capture (closure cell : Handle) : Conserves R (onHeap (Heap.capture closure cell)) := by
  intro m m' ended
  unfold onHeap Heap.capture at ended
  cases hclosure : m.heap.closure closure with
  | error f =>
      rw [hclosure] at ended
      cases ended
  | ok c =>
      rw [hclosure] at ended
      cases ended
      exact lasting.replace (Heap.closure_eq_ok_iff.mp hclosure) (.inr rfl) rfl

/-! ### Closing cells -/

theorem slotValue (slot : Nat) : Conserves R (Machine.slotValue slot) :=
  .read fun _ => lasting.demand _

theorem closing (cells : List (Nat × Handle)) :
    Conserves R (cells.forM fun (slot, cell) => closeCell slot cell : Action Unit) := by
  induction cells with
  | nil => exact lasting.pure _
  | cons e cells ih =>
      exact lasting.bind (lasting.bind (lasting.slotValue _) fun _ => lasting.setCell _ _)
        fun _ => ih

theorem closeFrom (slot : Nat) : Conserves R (Machine.closeFrom slot) :=
  .read fun m => lasting.bind (lasting.change (fun _ => rfl) fun _ => rfl) fun _ =>
    lasting.closing (m.openCells.splitFrom slot).1

/-- A runtime error closes cells and ends the calls. -/
theorem raise (cause : Cause) : Conserves R (Machine.raise cause : Action α) := by
  refine lasting.bind (lasting.ask _) fun _ => lasting.bind (lasting.bind (lasting.closeFrom 0)
    fun _ => lasting.change (fun _ => rfl) fun _ => rfl) fun _ m m' ended => ?_
  cases ended
  exact lasting.elsewhere rfl rfl

/-! ### Actions -/

theorem push (v : Value) : Conserves R (Machine.push v) := by
  intro m m' ended
  unfold Machine.push at ended
  split at ended
  · exact lasting.raise _ m m' ended
  · cases ended
    exact lasting.elsewhere rfl rfl

theorem openCell (slot : Nat) : Conserves R (Machine.openCell slot) := by
  refine .read fun m => ?_
  cases m.openCells.find? slot with
  | some cell => exact lasting.pure cell
  | none =>
      exact lasting.bind (Conserves.withRoots fun hrun => lasting.allocate (by simp) hrun) fun _ =>
        lasting.bind (lasting.change (fun _ => rfl) fun _ => rfl) fun _ => lasting.pure _

theorem setIp (ip : Nat) : Conserves R (Machine.setIp ip) := by
  refine lasting.change (fun m => ?_) fun m => ?_ <;> cases hframes : m.frames <;> rfl

theorem capturedCell (index : Nat) : Conserves R (Machine.capturedCell index) :=
  lasting.bind (.read fun _ => lasting.demand _) fun _ => lasting.bind (lasting.ask _) fun _ =>
    lasting.demand _

theorem concat (g h : Handle) : Conserves R (Machine.concat g h) :=
  Conserves.withRoots fun hrun => by
    obtain ⟨text, hrun⟩ := Heap.intern_of_concat hrun
    exact lasting.intern hrun

theorem allocateClosure (function : Handle) : Conserves R (Machine.allocateClosure function) :=
  Conserves.withRoots fun hrun => by
    obtain ⟨room, hrun⟩ := Heap.allocate_of_allocateClosure hrun
    exact lasting.allocate (by simp) hrun

/-! ### Instructions -/

/-- All actions conserve the relation that set no global. -/
theorem pervasive : Pervasive fun _ => Conserves R where
  pure := lasting.pure
  stop := .stop
  bind := lasting.bind
  read _ rest := .read rest
  ask _ := lasting.ask _
  raise := lasting.raise
  push := lasting.push
  restack _ := lasting.change (fun _ => rfl) fun _ => rfl
  countHostCall := lasting.change (fun _ => rfl) fun _ => rfl
  setIp := lasting.setIp
  enter _ := lasting.change (fun _ => rfl) fun _ => rfl
  closeFrom := lasting.closeFrom
  setCell cell _ := lasting.setCell cell _
  captureLocal _ slot := lasting.bind (lasting.openCell slot) fun _ => lasting.capture _ _
  captureCaptured _ index := lasting.bind (lasting.capturedCell index) fun _ => lasting.capture _ _
  concat := lasting.concat
  allocateClosure := lasting.allocateClosure

/-- Every instruction but those that set globals, and but the end of a call. -/
theorem execute {op : OpCode} (operand : Nat) (keeps : op ≠ .defineGlobal ∧ op ≠ .setGlobal) :
    Conserves R (Machine.execute op operand) :=
  lasting.pervasive.execute operand
    (fun _ => lasting.pervasive.print fun _ => lasting.change (fun _ => rfl) fun _ => rfl)
    fun sets => absurd sets (not_or.mpr keeps)

/-- The end of a call. -/
theorem giveBack : Conserves R Machine.giveBack :=
  lasting.pervasive.giveBack fun _ => lasting.change (fun _ => rfl) fun _ => rfl

/-- A step, unless its instruction sets a global. -/
theorem step {m m' : Machine} (ended : Ended (Machine.step m) m')
    (keeps : ∀ op operand mid, Machine.fetch m = .ok (op, operand) mid →
      op ≠ .defineGlobal ∧ op ≠ .setGlobal) : R m m' := by
  rcases ended.of_bind with ⟨e, hfetch⟩ | ⟨⟨op, operand⟩, mid, hfetch, ended⟩
  · exact lasting.pervasive.fetch m m' (hfetch ▸ .raised)
  refine lasting.trans (lasting.pervasive.fetch m mid (hfetch ▸ .ok)) ?_
  by_cases hop : op = .giveBack
  · simp only [if_pos hop] at ended
    exact lasting.giveBack mid m' ended
  · simp only [if_neg hop] at ended
    exact lasting.bind (lasting.execute operand (keeps op operand mid hfetch))
      (fun _ => lasting.pure Status.running) mid m' ended

end Lasting

end Lox.Machine
