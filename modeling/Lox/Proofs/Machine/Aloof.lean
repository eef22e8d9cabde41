import Lox.Proofs.Heap.Charging
import Lox.Proofs.Machine.Pervasive

/-!
# The side of the host

Three parts of a machine are there for the host alone: the printout, the diagnostics and the limit
of the stack. A program can see none of them. Whatever they are, an action does the same to the rest
of the machine, adds the same lines to the printout, and leaves the diagnostics and the limit alone.
The limit shows itself in one way only: where a push finds the stack full, a larger limit might have
let it go on.

## Main definitions

* `Side`, `Machine.beside` — the side of the host, and a machine with another one.
* `Machine.Spills` — an end that a larger limit of the stack could change.
* `Machine.Aloof` — an action that does the same whatever the side of the host is.
* `Machine.Mute` — an action that has nothing to do with the diagnostics.

## Main results

* `execute_aloof`, `run_aloof` — the machine is aloof.
-/

namespace Lox

/-- The parts of a machine that are there for the host. -/
structure Side where
  printout : Printout
  diagnostics : String
  stackMax : Nat

namespace Side

/-- The side of the host after some more lines have been printed. -/
def printed (side : Side) (lines : List String) : Side :=
  { side with printout := lines.foldl Printout.writeLine side.printout }

theorem printed_append (side : Side) (first second : List String) :
    side.printed (first ++ second) = (side.printed first).printed second := by
  simp only [printed, List.foldl_append]

end Side

namespace Machine

variable {m m' : Machine} {ε α β : Type}

/-- The side of the host. -/
def side (m : Machine) : Side := ⟨m.printout, m.diagnostics, m.stackMax⟩

/-- A machine with another side. -/
def beside (side : Side) (m : Machine) : Machine :=
  { m with printout := side.printout, diagnostics := side.diagnostics, stackMax := side.stackMax }

/-- An end that comes of a full stack: a stack overflow, or a fault of a machine that is too broken
to report one. A fault for a byte count is none. -/
def Spills : EStateM.Result Interruption Machine α → Prop
  | .ok _ _ => False
  | .error (.raised e) _ => e.cause = .stackOverflow
  | .error (.fault f) _ => f ≠ .overflow

/-- How a failed action spills does not depend on what it was to answer. -/
theorem Spills.retype {e : Interruption} (spills : Spills (.error e m : EStateM.Result _ _ α)) :
    Spills (.error e m : EStateM.Result _ _ β) := by
  cases e with
  | raised e => exact spills
  | fault f => exact spills

/-- An action is **aloof** when it prints the same lines and does the same otherwise, whatever the
side of the host is. It may take an end that comes of a full stack, if the other limit is larger. -/
def Aloof (x : Action α) : Prop :=
  ∀ m, ∃ lines, ∀ side : Side, m.stackMax ≤ side.stackMax →
    Spills (x m) ∧ m.stackMax < side.stackMax ∨
      x (beside side m) = onState (beside (side.printed lines)) (x m)

/-- An action that does not spill may be given a larger stack. -/
theorem Aloof.beside {x : Action α} (aloof : Aloof x) (m : Machine) : ∃ lines, ∀ side : Side,
    m.stackMax ≤ side.stackMax → (m.stackMax < side.stackMax → ¬ Spills (x m)) →
      x (beside side m) = onState (Machine.beside (side.printed lines)) (x m) := by
  obtain ⟨lines, h⟩ := aloof m
  exact ⟨lines, fun side le fits => (h side le).resolve_left fun spilt => fits spilt.2 spilt.1⟩

/-- What an action makes of the side of the host. -/
theorem Aloof.side {x : Action α} (aloof : Aloof x) {a : α} (run : x m = .ok a m') :
    ∃ lines, m'.side = m.side.printed lines := by
  obtain ⟨lines, h⟩ := aloof.beside m
  have hsame : x m = onState (Machine.beside (m.side.printed lines)) (x m) :=
    h m.side (Nat.le_refl _) fun lt => absurd lt (Nat.lt_irrefl _)
  rw [run] at hsame
  injection hsame with _ hmachine
  exact ⟨lines, congrArg Machine.side hmachine⟩

/-! ### Parts of actions -/

namespace Aloof

/-- An action that has nothing to do with the side of the host. -/
theorem silent {x : Action α}
    (same : ∀ m side, x (Machine.beside side m) = onState (Machine.beside side) (x m)) : Aloof x :=
  fun m => ⟨[], fun side _ => .inr (same m side)⟩

theorem pure (a : α) : Aloof (Pure.pure a : Action α) := .silent fun _ _ => rfl

theorem stop (f : Fault) : Aloof (stop f : Action α) := .silent fun _ _ => rfl

theorem throw (e : Interruption) : Aloof (MonadExcept.throw e : Action α) := .silent fun _ _ => rfl

theorem bind {x : Action α} {f : α → Action β} (first : Aloof x) (rest : ∀ a, Aloof (f a)) :
    Aloof (x >>= f) := by
  intro m
  obtain ⟨lines, hfirst⟩ := first m
  cases hrun : x m with
  | error e mid =>
      refine ⟨lines, fun side le => ?_⟩
      rw [bind_of_error hrun]
      rw [hrun] at hfirst
      rcases hfirst side le with ⟨hspills, hlarger⟩ | hsame
      · exact .inl ⟨hspills.retype, hlarger⟩
      · exact .inr (bind_of_error hsame)
  | ok a mid =>
      obtain ⟨more, hrest⟩ := rest a mid
      obtain ⟨printed, hside⟩ := first.side hrun
      have hlimit : mid.stackMax = m.stackMax := congrArg Side.stackMax hside
      refine ⟨lines ++ more, fun side le => ?_⟩
      rw [bind_of_ok hrun, Side.printed_append, ← hlimit]
      rcases hfirst side le with ⟨hspills, -⟩ | hsame
      · rw [hrun] at hspills
        exact hspills.elim
      · rw [hrun] at hsame
        rw [bind_of_ok hsame]
        exact hrest (side.printed lines) (hlimit ▸ le)

/-- Looking at the machine, but not at the side of the host. -/
theorem read {f : Machine → Action α} (same : ∀ m side, f (Machine.beside side m) = f m)
    (rest : ∀ m, Aloof (f m)) : Aloof (get >>= f) := by
  intro m
  obtain ⟨lines, h⟩ := rest m m
  refine ⟨lines, fun side le => ?_⟩
  rw [bind_of_ok (get_apply _), bind_of_ok (get_apply _), same]
  exact h side le

/-- Changing the machine, but not the side of the host. -/
theorem change {f : Machine → Machine}
    (same : ∀ m side, f (Machine.beside side m) = Machine.beside side (f m)) :
    Aloof (modify f : Action Unit) := by
  refine .silent fun m side => ?_
  rw [modify_apply, modify_apply, same]
  rfl

theorem ask {question : Machine → Except Fault α}
    (same : ∀ m side, question (Machine.beside side m) = question m) : Aloof (ask question) := by
  refine .silent fun m side => ?_
  unfold Machine.ask
  rw [same]
  cases question m with
  | ok a => rfl
  | error f => rfl

theorem demand (o : Option α) : Aloof (demand o) := by
  cases o with
  | none => exact .stop _
  | some a => exact .pure a

theorem ite {p : Prop} [Decidable p] {x y : Action α} (yes : Aloof x) (no : Aloof y) :
    Aloof (if p then x else y) := by
  split
  · exact yes
  · exact no

theorem onHeap (operation : HeapM α) : Aloof (onHeap operation) := by
  refine .silent fun m side => ?_
  simp only [Machine.onHeap, Machine.beside]
  cases operation m.heap with
  | ok a heap => rfl
  | error f heap => rfl

theorem withRoots (operation : List Handle → HeapM α) : Aloof (withRoots operation) := by
  refine .silent fun m side => ?_
  simp only [Machine.withRoots, Machine.beside]
  cases operation (roots m.stack m.frames m.openCells m.globals) m.heap with
  | ok a heap => rfl
  | error f heap => rfl

end Aloof

/-! ### The stack and the cells -/

theorem slotValue_aloof (slot : Nat) : Aloof (slotValue slot) :=
  .read (fun _ _ => rfl) fun _ => .demand _

theorem closeCell_aloof (slot : Nat) (cell : Handle) : Aloof (closeCell slot cell) :=
  .bind (slotValue_aloof slot) fun _ => .onHeap _

theorem closing_aloof (closing : List (Nat × Handle)) :
    Aloof (closing.forM fun (slot, cell) => closeCell slot cell : Action Unit) := by
  induction closing with
  | nil => exact .pure _
  | cons e closing ih => exact .bind (closeCell_aloof e.1 e.2) fun _ => ih

theorem closeFrom_aloof (slot : Nat) : Aloof (closeFrom slot) :=
  .read (fun _ _ => rfl) fun _ => .bind (.change fun _ _ => rfl) fun _ => closing_aloof _

theorem openCell_aloof (slot : Nat) : Aloof (openCell slot) := by
  refine .read (fun _ _ => rfl) fun m => ?_
  cases m.openCells.find? slot with
  | some cell => exact .pure _
  | none => exact .bind (.withRoots _) fun _ => .bind (.change fun _ _ => rfl) fun _ => .pure _

theorem raise_aloof (cause : Cause) : Aloof (raise cause : Action α) :=
  .bind (.ask fun _ _ => rfl) fun _ =>
    .bind (.bind (closeFrom_aloof 0) fun _ => .change fun _ _ => rfl) fun _ => .throw _

/-! ### A full stack -/

/-- An action that raises no error, and whose faults never come of a byte count. -/
def Modest (x : Action α) : Prop :=
  ∀ m m' e, x m = .error e m' → ∃ f, e = .fault f ∧ f ≠ .overflow

theorem Modest.bind {x : Action α} {f : α → Action β} (first : Modest x)
    (rest : ∀ a, Modest (f a)) : Modest (x >>= f) := by
  intro m m' e run
  cases hrun : x m with
  | ok a mid =>
      rw [bind_of_ok hrun] at run
      exact rest a mid m' e run
  | error i mid =>
      rw [bind_of_error hrun] at run
      cases run
      exact first m m' e hrun

theorem Modest.ask {question : Machine → Except Fault α}
    (plain : ∀ m, question m ≠ .error .overflow) : Modest (ask question) := by
  intro m m' e run
  unfold Machine.ask at run
  split at run
  · cases run
  · rename_i f hfault
    cases run
    exact ⟨f, rfl, fun h => plain m (h ▸ hfault)⟩

/-- Looking something up in two steps. -/
theorem bind_ne_overflow {x : Except Fault α} {f : α → Except Fault β}
    (first : x ≠ .error .overflow)
    (rest : ∀ a, f a ≠ .error .overflow) : (x >>= f) ≠ .error .overflow := by
  cases x with
  | ok a => exact rest a
  | error e => exact fun h => first (by cases h; rfl)

theorem function_ne_overflow (heap : Heap) (h : Handle) : heap.function h ≠ .error .overflow := by
  refine bind_ne_overflow (heap.object_ne_overflow h) fun o => ?_
  cases o with
  | function f => exact fun h => by cases h
  | string | native | closure | cell => exact fun h => by cases h

theorem string_ne_overflow (heap : Heap) (h : Handle) : heap.string h ≠ .error .overflow := by
  refine bind_ne_overflow (heap.object_ne_overflow h) fun o => ?_
  cases o with
  | string text => exact fun h => by cases h
  | function | native | closure | cell => exact fun h => by cases h

theorem cell_ne_overflow (heap : Heap) (h : Handle) : heap.cell h ≠ .error .overflow := by
  refine bind_ne_overflow (heap.object_ne_overflow h) fun o => ?_
  cases o with
  | cell c => exact fun h => by cases h
  | string | function | native | closure => exact fun h => by cases h

theorem traceLine_ne_overflow (heap : Heap) (fr : Frame) :
    traceLine heap fr ≠ .error .overflow := by
  refine bind_ne_overflow (function_ne_overflow heap fr.function) fun f =>
    bind_ne_overflow ?_ fun name => ?_
  · cases f.name with
    | none => exact fun h => by cases h
    | some name =>
        exact bind_ne_overflow (string_ne_overflow heap name) fun _ => fun h => by cases h
  · split <;> exact fun h => by cases h

theorem trace_ne_overflow (heap : Heap) (frames : List Frame) :
    frames.mapM (traceLine heap) ≠ .error .overflow := by
  induction frames with
  | nil => exact fun h => by cases h
  | cons fr frames ih =>
      rw [List.mapM_cons]
      exact bind_ne_overflow (traceLine_ne_overflow heap fr) fun _ =>
        bind_ne_overflow ih fun _ => fun h => by cases h

theorem closing_modest (closing : List (Nat × Handle)) :
    Modest (closing.forM fun (slot, cell) => closeCell slot cell : Action Unit) := by
  induction closing with
  | nil => exact fun _ _ _ run => by cases run
  | cons e closing ih =>
      refine .bind (.bind (fun m m' i run => ?_) fun v m m' i run => ?_) fun _ => ih
      · rw [slotValue, bind_of_ok (get_apply m)] at run
        cases hslot : m.stack[e.1]? with
        | some v =>
            rw [hslot] at run
            cases run
        | none =>
            rw [hslot] at run
            cases run
            exact ⟨.outOfRange, rfl, fun h => by cases h⟩
      · simp only [onHeap, Heap.setCell] at run
        cases hcell : m.heap.cell e.2 with
        | ok c =>
            rw [hcell] at run
            cases run
        | error f =>
            rw [hcell] at run
            cases run
            exact ⟨f, rfl, fun h => cell_ne_overflow m.heap e.2 (h ▸ hcell)⟩

theorem reset_modest : Modest reset :=
  .bind (.bind (fun _ _ _ run => by cases run) fun _ => .bind (fun _ _ _ run => by cases run)
    fun _ => closing_modest _) fun _ _ _ _ run => by cases run

/-- Raising an error raises it, unless the machine is too broken to report it. -/
theorem raise_ends (cause : Cause) (m : Machine) :
    (∃ trace m', (raise cause : Action α) m = .error (.raised ⟨cause, trace⟩) m') ∨
      ∃ f m', f ≠ .overflow ∧ (raise cause : Action α) m = .error (.fault f) m' := by
  have hquestion : Modest (ask fun m => m.frames.mapM (traceLine m.heap)) :=
    .ask fun m => trace_ne_overflow m.heap m.frames
  rw [raise]
  cases htrace : ask (fun m => m.frames.mapM (traceLine m.heap)) m with
  | error i mid =>
      obtain ⟨f, rfl, hother⟩ := hquestion m mid i htrace
      exact .inr ⟨f, mid, hother, bind_of_error htrace⟩
  | ok trace mid =>
      rw [bind_of_ok htrace]
      cases hreset : reset mid with
      | error i last =>
          obtain ⟨f, rfl, hother⟩ := reset_modest mid last i hreset
          exact .inr ⟨f, last, hother, bind_of_error hreset⟩
      | ok _ last => exact .inl ⟨trace, last, bind_of_ok hreset⟩

/-- An error for a full stack spills. -/
theorem raise_spills (m : Machine) : Spills ((raise .stackOverflow : Action α) m) := by
  rcases raise_ends (α := α) .stackOverflow m with ⟨trace, m', hraise⟩ | ⟨f, m', hother, hraise⟩
  · rw [hraise]
    rfl
  · rw [hraise]
    exact hother

theorem push_aloof (v : Value) : Aloof (push v) := by
  intro m
  by_cases hfull : m.stackMax ≤ m.stack.size
  · obtain ⟨lines, h⟩ := raise_aloof (α := Unit) .stackOverflow m
    refine ⟨lines, fun side le => ?_⟩
    rw [show push v m = raise .stackOverflow m from if_pos hfull]
    by_cases hlarger : m.stackMax < side.stackMax
    · exact .inl ⟨raise_spills m, hlarger⟩
    · have hfull' : side.stackMax ≤ (beside side m).stack.size :=
        Nat.le_trans (Nat.not_lt.mp hlarger) hfull
      rw [show push v (beside side m) = raise .stackOverflow (beside side m) from if_pos hfull']
      exact h side le
  · refine ⟨[], fun side le => .inr ?_⟩
    have hroom : ¬ side.stackMax ≤ (beside side m).stack.size := fun h => hfull (Nat.le_trans le h)
    rw [show push v m = .ok () { m with stack := m.stack.push v } from if_neg hfull]
    exact if_neg hroom

theorem setIp_aloof (ip : Nat) : Aloof (setIp ip) := by
  refine .change fun m side => ?_
  rw [show (beside side m).frames = m.frames from rfl]
  cases m.frames with
  | nil => rfl
  | cons => rfl

theorem capturedCell_aloof (index : Nat) : Aloof (capturedCell index) :=
  .bind (.read (fun _ _ => rfl) fun _ => .demand _) fun _ => .bind (.ask fun _ _ => rfl) fun _ =>
    .demand _

/-! ### Instructions and steps -/

/-- All actions that do not print are aloof. -/
theorem Aloof.pervasive : Pervasive fun _ => Aloof where
  pure := .pure
  stop := .stop
  bind := .bind
  read blind := .read fun m _ => blind m _ _ _
  ask blind := .ask fun m _ => blind m _ _ _
  raise := raise_aloof
  push := push_aloof
  restack _ := .change fun _ _ => rfl
  countHostCall := .change fun _ _ => rfl
  setIp := setIp_aloof
  enter _ := .change fun _ _ => rfl
  closeFrom := closeFrom_aloof
  setCell _ _ := .onHeap _
  captureLocal _ slot := .bind (openCell_aloof slot) fun _ => .onHeap _
  captureCaptured _ index := .bind (capturedCell_aloof index) fun _ => .onHeap _
  concat _ _ := .withRoots _
  allocateClosure _ := .withRoots _

/-- Every instruction is aloof. Printing a line adds it to the printout, whatever that holds. -/
theorem execute_aloof (op : OpCode) (operand : Nat) : Aloof (execute op operand) :=
  Aloof.pervasive.execute operand
    (fun _ => Aloof.pervasive.print fun text _ => ⟨[text], fun _ _ => .inr rfl⟩)
    fun _ _ _ => .change fun _ _ => rfl

/-- Any number of steps is aloof. -/
theorem run_aloof (budget : Nat) : Aloof (run budget) :=
  Aloof.pervasive.run
    (Aloof.pervasive.step (Aloof.pervasive.giveBack fun _ => .change fun _ _ => rfl) execute_aloof)
    budget

/-! ### Diagnostics -/

/-- A machine with other diagnostics. -/
def withDiagnostics (text : String) (m : Machine) : Machine := { m with diagnostics := text }

/-- An action is **mute** when it does the same whatever the diagnostics are, and leaves them as
they are. -/
def Mute (x : EStateM ε Machine α) : Prop :=
  ∀ m text, x (withDiagnostics text m) = onState (withDiagnostics text) (x m)

/-- A mute action that answers adds no diagnostics. -/
theorem Mute.diagnostics {x : EStateM ε Machine α} (mute : Mute x) {a : α} {m' : Machine}
    (run : x m = .ok a m') : m'.diagnostics = m.diagnostics := by
  have hsame : x m = onState (withDiagnostics m.diagnostics) (x m) := mute m m.diagnostics
  rw [run] at hsame
  injection hsame with _ hmachine
  rw [hmachine]
  rfl

end Machine

end Lox
