import Lox.Proofs.Sequencing
import Lox.Session

/-!
# What holds of all actions of the machine

The instructions are put together from a few small actions. A property that sequences keep, and that
these have, pervades the machine: each instruction has it, and so do steps and runs. Here the
machine is gone through once, for any such property.

Actions that print or set globals are left out, and so is the end of a call. They are what some
properties are about.

## Main definitions

* `Machine.Pervasive` — a property of actions that sequences and the smallest actions have.

## Main results

* `Pervasive.execute` — any instruction.
* `Pervasive.callScript`, `Pervasive.step`, `Pervasive.run` — the start of a script, steps and runs.
-/

namespace Lox.Machine

variable {α β : Type}

/-- A property of actions that sequences keep, and that the smallest actions have. -/
structure Pervasive (P : ∀ ⦃α : Type⦄, Action α → Prop) : Prop where
  pure {α : Type} (a : α) : P (Pure.pure a)
  stop {α : Type} (f : Fault) : P (stop f : Action α)
  bind {α β : Type} {x : Action α} {f : α → Action β} (first : P x) (rest : ∀ a, P (f a)) :
    P (x >>= f)
  /-- The machine is looked at, but not the parts of it that are there for the host. -/
  read {α : Type} {f : Machine → Action α}
    (blind : ∀ m printout diagnostics stackMax,
      f { m with printout, diagnostics, stackMax } = f m)
    (rest : ∀ m, P (f m)) : P (get >>= f)
  ask {α : Type} {question : Machine → Except Fault α}
    (blind : ∀ m printout diagnostics stackMax,
      question { m with printout, diagnostics, stackMax } = question m) : P (ask question)
  raise {α : Type} (cause : Cause) : P (raise cause : Action α)
  push (v : Value) : P (push v)
  restack (f : Array Value → Array Value) : P (modify fun m => { m with stack := f m.stack })
  countHostCall : P (modify fun m => { m with hostCalls := m.hostCalls + 1 })
  setIp (ip : Nat) : P (setIp ip)
  enter (fr : Frame) : P (modify fun m => { m with frames := fr :: m.frames })
  closeFrom (slot : Nat) : P (closeFrom slot)
  setCell (cell : Handle) (v : Value) : P (onHeap (Heap.setCell cell (.closed v)))
  /-- A closure captures a local of the innermost call. -/
  captureLocal (closure : Handle) (slot : Nat) :
    P (openCell slot >>= fun cell => onHeap (Heap.capture closure cell))
  /-- A closure captures what the innermost call has captured. -/
  captureCaptured (closure : Handle) (index : Nat) :
    P (capturedCell index >>= fun cell => onHeap (Heap.capture closure cell))
  concat (g h : Handle) : P (concat g h)
  allocateClosure (function : Handle) : P (allocateClosure function)

namespace Pervasive

variable {P : ∀ ⦃α : Type⦄, Action α → Prop}

theorem ite {p : Prop} [Decidable p] {x y : Action α} (yes : P x) (no : P y) :
    P (if p then x else y) := by
  split
  · exact yes
  · exact no

variable (pervasive : Pervasive P)

include pervasive

/-! ### The stack and the cells -/

theorem demand (o : Option α) : P (demand o) := by
  cases o with
  | none => exact pervasive.stop _
  | some a => exact pervasive.pure a

theorem slotValue (slot : Nat) : P (slotValue slot) :=
  pervasive.read (fun _ _ _ _ => rfl) fun _ => pervasive.demand _

theorem setSlot (slot : Nat) (v : Value) : P (setSlot slot v) :=
  pervasive.read (fun _ _ _ _ => rfl) fun _ =>
    ite (pervasive.restack (·.setIfInBounds slot v)) (pervasive.stop _)

theorem pop : P pop :=
  pervasive.read (fun _ _ _ _ => rfl) fun _ =>
    pervasive.bind (pervasive.restack Array.pop) fun _ => pervasive.pure _

theorem peek (depth : Nat) : P (peek depth) :=
  pervasive.read (fun _ _ _ _ => rfl) fun _ => ite (pervasive.demand _) (pervasive.stop _)

theorem truncate (size : Nat) : P (truncate size) := pervasive.restack (·.shrink size)

/-! ### Reading code -/

theorem frame : P frame := pervasive.read (fun _ _ _ _ => rfl) fun _ => pervasive.demand _

theorem chunk : P chunk :=
  pervasive.bind pervasive.frame fun _ => pervasive.bind (pervasive.ask fun _ _ _ _ => rfl)
    fun _ => pervasive.pure _

theorem readByte : P readByte :=
  pervasive.bind pervasive.frame fun _ => pervasive.bind pervasive.chunk fun _ =>
    pervasive.bind (pervasive.demand _) fun _ => pervasive.bind (pervasive.setIp _) fun _ =>
      pervasive.pure _

theorem fetch : P fetch := by
  refine pervasive.bind pervasive.frame fun _ => pervasive.bind pervasive.chunk fun _ =>
    pervasive.bind (pervasive.demand _) fun byte => ?_
  cases OpCode.ofByte? byte with
  | none => exact pervasive.bind (pervasive.setIp _) fun _ => pervasive.raise _
  | some op =>
      exact pervasive.bind (pervasive.demand _) fun _ => pervasive.bind (pervasive.setIp _)
        fun _ => pervasive.pure _

theorem constant (index : Nat) : P (constant index) :=
  pervasive.bind pervasive.chunk fun _ => pervasive.demand _

theorem nameConstant (index : Nat) : P (nameConstant index) := by
  have hraise : ∀ v : Value, P (do Machine.raise (.nameExpected (← Machine.ask (·.heap.display v)))
      : Action Handle) := fun v =>
    pervasive.bind (pervasive.ask fun _ _ _ _ => rfl) fun _ => pervasive.raise _
  refine pervasive.bind (pervasive.constant index) fun v => ?_
  cases v with
  | object h =>
      exact pervasive.bind (pervasive.ask fun _ _ _ _ => rfl) fun _ =>
        ite (pervasive.pure _) (hraise _)
  | nil | bool | number => exact hraise _

/-! ### Variables -/

theorem readGlobal (name : Handle) : P (readGlobal name) := by
  refine pervasive.read (fun _ _ _ _ => rfl) fun m => ?_
  cases m.globals[name]? with
  | some v => exact pervasive.pure v
  | none =>
      exact pervasive.bind (pervasive.ask fun _ _ _ _ => rfl) fun _ => pervasive.raise _

theorem assignGlobal (set : ∀ name v, P (setGlobal name v)) (name : Handle) :
    P (assignGlobal name) :=
  pervasive.read (fun _ _ _ _ => rfl) fun _ => ite
    (pervasive.bind (pervasive.peek 0) fun _ => set _ _)
    (pervasive.bind (pervasive.ask fun _ _ _ _ => rfl) fun _ => pervasive.raise _)

theorem capturedCell (index : Nat) : P (capturedCell index) :=
  pervasive.bind pervasive.frame fun _ => pervasive.bind (pervasive.ask fun _ _ _ _ => rfl)
    fun _ => pervasive.demand _

theorem readCell (cell : Handle) : P (readCell cell) := by
  refine pervasive.bind (pervasive.ask fun _ _ _ _ => rfl) fun state => ?_
  cases state with
  | opened slot => exact pervasive.slotValue slot
  | closed v => exact pervasive.pure v

theorem writeCell (cell : Handle) (v : Value) : P (writeCell cell v) := by
  refine pervasive.bind (pervasive.ask fun _ _ _ _ => rfl) fun state => ?_
  cases state with
  | opened slot => exact pervasive.setSlot slot v
  | closed _ => exact pervasive.setCell cell v

/-! ### Operators -/

/-- Two operands make room for their result. -/
theorem replaceTwo (v : Value) : P (do
    let _ ← Machine.pop
    let _ ← Machine.pop
    Machine.push v) :=
  pervasive.bind pervasive.pop fun _ => pervasive.bind pervasive.pop fun _ => pervasive.push v

theorem binary (operation : Float → Float → Value) : P (binary operation) := by
  refine pervasive.bind (pervasive.peek 1) fun left => pervasive.bind (pervasive.peek 0)
    fun right => ?_
  split
  · exact pervasive.replaceTwo _
  · exact pervasive.raise _

theorem add : P add := by
  refine pervasive.bind (pervasive.peek 1) fun left => pervasive.bind (pervasive.peek 0)
    fun right => ?_
  split
  · exact pervasive.replaceTwo _
  · exact pervasive.bind (pervasive.ask fun _ _ _ _ => rfl) fun _ => ite (pervasive.raise _)
      (pervasive.bind (pervasive.ask fun _ _ _ _ => rfl) fun _ => ite (pervasive.raise _)
        (pervasive.bind (pervasive.concat _ _) fun _ => pervasive.replaceTwo _))
  · exact pervasive.raise _

theorem negate : P negate := by
  refine pervasive.bind (pervasive.peek 0) fun v => ?_
  split
  · exact pervasive.bind pervasive.pop fun _ => pervasive.push _
  · exact pervasive.raise _

/-! ### Calls -/

theorem call (closure : Handle) (count : Nat) : P (call closure count) :=
  pervasive.bind (pervasive.ask fun _ _ _ _ => rfl) fun _ =>
    pervasive.bind (pervasive.ask fun _ _ _ _ => rfl) fun _ =>
      pervasive.read (fun _ _ _ _ => rfl) fun _ => ite (pervasive.raise _)
        (ite (pervasive.raise _) (ite (pervasive.stop _) (pervasive.enter _)))

theorem callNative (native : Native) (count : Nat) : P (callNative native count) :=
  pervasive.read (fun _ _ _ _ => rfl) fun _ => pervasive.bind pervasive.countHostCall fun _ =>
    pervasive.bind (pervasive.truncate _) fun _ => pervasive.push _

theorem callValue (count : Nat) : P (callValue count) := by
  refine pervasive.bind (pervasive.peek count) fun v => ?_
  cases v with
  | object h =>
      refine pervasive.bind (pervasive.ask fun _ _ _ _ => rfl) fun kind => ?_
      cases kind with
      | closure => exact pervasive.call h count
      | native =>
          exact pervasive.bind (pervasive.ask fun _ _ _ _ => rfl) fun _ =>
            pervasive.callNative _ _
      | string | function | cell => exact pervasive.raise _
  | nil | bool | number => exact pervasive.raise _

theorem captureNext (closure : Handle) : P (captureNext closure) :=
  pervasive.bind pervasive.readByte fun _ => pervasive.bind pervasive.readByte fun _ => ite
    (pervasive.bind pervasive.frame fun _ => pervasive.captureLocal closure _)
    (pervasive.captureCaptured closure _)

theorem captureAll (closure : Handle) (count : Nat) : P (captureAll closure count) := by
  induction count with
  | zero => exact pervasive.pure _
  | succ count ih => exact pervasive.bind (pervasive.captureNext closure) fun _ => ih

theorem makeClosure (index : Nat) : P (makeClosure index) := by
  refine pervasive.bind (pervasive.constant index) fun v => ?_
  cases v with
  | object function =>
      exact pervasive.bind (pervasive.allocateClosure function) fun _ =>
        pervasive.bind (pervasive.push _) fun _ =>
          pervasive.bind (pervasive.ask fun _ _ _ _ => rfl) fun _ => pervasive.captureAll _ _
  | nil | bool | number => exact pervasive.raise _

/-- The end of a call, if the call may be left. -/
theorem giveBack (leave : ∀ outer, P (modify fun m : Machine => { m with frames := outer })) :
    P giveBack := by
  refine pervasive.bind pervasive.pop fun result =>
    pervasive.read (fun _ _ _ _ => rfl) fun m => ?_
  cases m.frames with
  | nil => exact pervasive.pure _
  | cons fr outer =>
      exact pervasive.bind (leave outer) fun _ => pervasive.bind (pervasive.closeFrom _) fun _ =>
        pervasive.bind (pervasive.truncate _) fun _ => ite (pervasive.pure _)
          (pervasive.bind (pervasive.push _) fun _ => pervasive.pure _)

/-! ### Control -/

theorem jump (distance : Nat) : P (jump distance) :=
  pervasive.bind pervasive.frame fun _ => pervasive.setIp _

theorem jumpBack (distance : Nat) : P (jumpBack distance) :=
  pervasive.bind pervasive.frame fun _ => ite (pervasive.setIp _) (pervasive.stop _)

theorem closeTop : P closeTop := by
  have hclose : ∀ size, P (do Machine.closeFrom size; let _ ← Machine.pop : Action Unit) :=
    fun size => pervasive.bind (pervasive.closeFrom size) fun _ =>
      pervasive.bind pervasive.pop fun _ => pervasive.pure _
  exact pervasive.read (fun _ _ _ _ => rfl) fun _ =>
    ite (pervasive.bind (pervasive.stop _) fun _ => hclose _) (hclose _)

/-- Printing, if a line may be written. -/
theorem print (write : ∀ text, P (modify fun m : Machine =>
    { m with printout := m.printout.writeLine text })) : P print :=
  pervasive.bind pervasive.pop fun _ => pervasive.bind (pervasive.ask fun _ _ _ _ => rfl)
    fun text => write text

/-! ### Instructions and steps -/

/-- Any instruction, if it may print or set globals where it does. -/
theorem execute {op : OpCode} (operand : Nat) (printing : op = .print → P Machine.print)
    (setting : op = .defineGlobal ∨ op = .setGlobal → ∀ name v, P (setGlobal name v)) :
    P (execute op operand) := by
  cases op with
  | constant => exact pervasive.bind (pervasive.constant _) fun _ => pervasive.push _
  | pushNil | pushTrue | pushFalse => exact pervasive.push _
  | pop => exact pervasive.bind pervasive.pop fun _ => pervasive.pure _
  | getLocal =>
      exact pervasive.bind pervasive.frame fun _ => pervasive.bind (pervasive.slotValue _)
        fun _ => pervasive.push _
  | setLocal =>
      exact pervasive.bind pervasive.frame fun _ => pervasive.bind (pervasive.peek 0) fun _ =>
        pervasive.setSlot _ _
  | getGlobal =>
      exact pervasive.bind (pervasive.nameConstant _) fun _ =>
        pervasive.bind (pervasive.readGlobal _) fun _ => pervasive.push _
  | defineGlobal =>
      exact pervasive.bind (pervasive.nameConstant _) fun _ => pervasive.bind (pervasive.peek 0)
        fun _ => pervasive.bind (setting (.inl rfl) _ _) fun _ =>
          pervasive.bind pervasive.pop fun _ => pervasive.pure _
  | setGlobal =>
      exact pervasive.bind (pervasive.nameConstant _) fun _ =>
        pervasive.assignGlobal (setting (.inr rfl)) _
  | getUpvalue =>
      exact pervasive.bind (pervasive.capturedCell _) fun _ =>
        pervasive.bind (pervasive.readCell _) fun _ => pervasive.push _
  | setUpvalue =>
      exact pervasive.bind (pervasive.capturedCell _) fun _ => pervasive.bind (pervasive.peek 0)
        fun _ => pervasive.writeCell _ _
  | equal =>
      exact pervasive.bind pervasive.pop fun _ => pervasive.bind pervasive.pop fun _ =>
        pervasive.push _
  | greater | less | subtract | multiply | divide => exact pervasive.binary _
  | add => exact pervasive.add
  | not => exact pervasive.bind pervasive.pop fun _ => pervasive.push _
  | negate => exact pervasive.negate
  | print => exact printing rfl
  | jump => exact pervasive.jump _
  | jumpIfFalse =>
      exact pervasive.bind (pervasive.peek 0) fun _ => ite (pervasive.jump _) (pervasive.pure _)
  | loop => exact pervasive.jumpBack _
  | call => exact pervasive.callValue _
  | closure => exact pervasive.makeClosure _
  | closeUpvalue => exact pervasive.closeTop
  | giveBack => exact pervasive.pure _

/-- One step, if all instructions have the property. -/
theorem step (leaving : P Machine.giveBack)
    (executing : ∀ op operand, P (Machine.execute op operand)) :
    P step := by
  refine pervasive.bind pervasive.fetch fun next => ?_
  obtain ⟨op, operand⟩ := next
  exact ite leaving (pervasive.bind (executing op operand) fun _ => pervasive.pure _)

/-- The start of a script. -/
theorem callScript (script : Handle) : P (Session.callScript script) :=
  pervasive.bind (pervasive.push _) fun _ => pervasive.bind (pervasive.allocateClosure script)
    fun _ => pervasive.bind pervasive.pop fun _ => pervasive.bind (pervasive.push _) fun _ =>
      pervasive.call _ _

/-- Any number of steps. -/
theorem run (stepping : P Machine.step) (budget : Nat) : P (run budget) := by
  induction budget with
  | zero => exact pervasive.pure _
  | succ budget ih =>
      refine pervasive.bind stepping fun status => ?_
      cases status with
      | running => exact ih
      | halted => exact pervasive.pure _

end Pervasive

end Lox.Machine
