import Lox.Proofs.Code.Alignment
import Lox.Proofs.Machine.Naming

/-!
# What instructions do to the stack

An action takes values off the stack and puts others in their place, and how many does not depend
on what they are. So the effects of a sequence add up. What lies deeper than the values that an
instruction takes stays as it is, unless the instruction assigns a local variable or a captured one.

Nothing is assumed of the code that runs.

## Main definitions

* `Turns` — how the stack and the calls change.
* `Effect` — an action that takes some values and gives others.

## Main results

* `execute_effect` — every instruction that neither assigns a slot nor calls.
-/

namespace Lox.Machine

variable {m m' mid : Machine} {α β : Type} {v : Value} {taken given taken' given' : Nat}
  {op : OpCode}

/-- The innermost call goes on at an offset. -/
def moved (ip : Nat) (frames : List Frame) : List Frame :=
  frames.modifyHead fun fr => { fr with ip }

/-- Some values are taken off the stack and others are put on it. The calls stay, but the innermost
one may have moved. -/
structure Turns (taken given : Nat) (m m' : Machine) : Prop where
  height : m'.stack.size + taken = m.stack.size + given
  below : ∀ j, j + taken < m.stack.size → m'.stack[j]? = m.stack[j]?
  frames : ∃ ip, m'.frames = moved ip m.frames

/-- Where the stack stays as it is, and the calls but for an offset. -/
theorem Turns.still (stack : m'.stack = m.stack) (frames : ∃ ip, m'.frames = moved ip m.frames) :
    Turns 0 0 m m' :=
  ⟨by rw [stack], fun j _ => by rw [stack], frames⟩

/-- A call has its own offset. -/
theorem exists_moved (frames : List Frame) : ∃ ip, frames = moved ip frames := by
  cases frames with
  | nil => exact ⟨0, rfl⟩
  | cons fr outer => exact ⟨fr.ip, rfl⟩

/-- Where nothing happens to the stack and to the calls. -/
theorem Turns.same (stack : m'.stack = m.stack) (frames : m'.frames = m.frames) :
    Turns 0 0 m m' :=
  .still stack (frames ▸ exists_moved _)

/-- One change after another. What the second takes, it takes first of what the first has given. -/
theorem Turns.trans (first : Turns taken given m mid) (second : Turns taken' given' mid m') :
    Turns (taken + (taken' - given)) (given' + (given - taken')) m m' := by
  obtain ⟨hheight, hbelow, ip, hframes⟩ := first
  obtain ⟨hheight', hbelow', ip', hframes'⟩ := second
  refine ⟨by omega, fun j hj => ?_, ip', ?_⟩
  · rw [hbelow' j (by omega), hbelow j (by omega)]
  · rw [hframes', hframes]
    cases m.frames <;> rfl

/-- An action that takes some values and gives others, if it answers. -/
def Effect (taken given : Nat) (x : Action α) : Prop :=
  ∀ m a m', taken ≤ m.stack.size → x m = .ok a m' → Turns taken given m m'

namespace Effect

/-- The effects of two actions add up. -/
theorem bind {x : Action α} {f : α → Action β} (first : Effect taken given x)
    (rest : ∀ a, Effect taken' given' (f a)) :
    Effect (taken + (taken' - given)) (given' + (given - taken')) (x >>= f) := by
  intro m b m' henough hrun
  obtain ⟨a, mid, hx, hf⟩ := bind_eq_ok_iff.mp hrun
  have hfirst := first m a mid (by omega) hx
  have hheight := hfirst.height
  exact hfirst.trans (rest a mid b m' (by omega) hf)

/-- An action that leaves the stack alone does so before any other. -/
theorem after {x : Action α} {f : α → Action β} (first : Effect 0 0 x)
    (rest : ∀ a, Effect taken given (f a)) : Effect taken given (x >>= f) := by
  simpa using first.bind rest

/-- An action that leaves the stack alone does so after any other. -/
theorem before {x : Action α} {f : α → Action β} (first : Effect taken given x)
    (rest : ∀ a, Effect 0 0 (f a)) : Effect taken given (x >>= f) := by
  simpa using first.bind rest

/-- An action that only looks. -/
theorem look {x : Action α} (looks : ∀ m, Looks m (x m)) : Effect 0 0 x := by
  intro m a m' _ hrun
  obtain rfl := (looks m).eq_of_ok hrun
  exact .same rfl rfl

theorem pure (a : α) : Effect 0 0 (Pure.pure a : Action α) := .look fun _ => .ok

theorem ask (question : Machine → Except Fault α) : Effect 0 0 (ask question) :=
  .look fun _ => .ask _

theorem demand (o : Option α) : Effect 0 0 (demand o) := .look fun _ => .demand o

/-- Looking at the machine itself. -/
theorem read {f : Machine → Action α} (rest : ∀ m, Effect taken given (f m)) :
    Effect taken given (get >>= f) := fun m => rest m m

theorem ite {p : Prop} [Decidable p] {x y : Action α} (yes : Effect taken given x)
    (no : Effect taken given y) : Effect taken given (if p then x else y) := by
  split
  · exact yes
  · exact no

/-- Stopping never answers. -/
theorem stop (f : Fault) : Effect taken given (Machine.stop f : Action α) :=
  fun _ _ _ _ hrun => by cases hrun

/-- Raising an error never answers. -/
theorem raise (cause : Cause) : Effect taken given (Machine.raise cause : Action α) := by
  intro m a m' _ hrun
  obtain ⟨i, last, hraise⟩ := raise_eq cause m
  rw [hraise] at hrun
  cases hrun

/-- Changing the machine, but not its stack and its calls. -/
theorem change {f : Machine → Machine} (stack : ∀ m, (f m).stack = m.stack)
    (frames : ∀ m, (f m).frames = m.frames) : Effect 0 0 (modify f) := by
  intro m a m' _ hrun
  cases hrun
  exact .same (stack m) (frames m)

theorem onHeap (operation : HeapM α) : Effect 0 0 (Machine.onHeap operation) := by
  intro m a m' _ hrun
  unfold Machine.onHeap at hrun
  split at hrun
  · cases hrun
    exact .same rfl rfl
  · cases hrun

theorem withRoots (operation : List Handle → HeapM α) :
    Effect 0 0 (Machine.withRoots operation) := by
  intro m a m' _ hrun
  unfold Machine.withRoots at hrun
  split at hrun
  · cases hrun
    exact .same rfl rfl
  · cases hrun

theorem forM {γ : Type} {f : γ → Action PUnit} (each : ∀ c, Effect 0 0 (f c)) (cs : List γ) :
    Effect 0 0 (cs.forM f) := by
  induction cs with
  | nil => exact .pure _
  | cons c cs ih => exact (each c).after fun _ => ih

end Effect

/-! ### The stack -/

theorem push_effect (v : Value) : Effect 0 1 (push v) := by
  intro m a m' _ hrun
  unfold push at hrun
  split at hrun
  · exact absurd hrun (by
      obtain ⟨i, last, hraise⟩ := raise_eq .stackOverflow m
      rw [hraise]
      nofun)
  · cases hrun
    refine ⟨by simp, fun j hj => ?_, exists_moved _⟩
    rw [Array.getElem?_push, if_neg (by omega)]

theorem pop_effect : Effect 1 0 pop := by
  intro m a m' henough hrun
  cases hrun
  refine ⟨by simp; omega, fun j hj => ?_, exists_moved _⟩
  rw [Array.getElem?_pop, if_pos (by omega)]

/-- Popping and going on. -/
theorem Effect.pop {f : Value → Action α} (rest : ∀ v, Effect taken given (f v)) :
    Effect (taken + 1) given (Machine.pop >>= f) := by
  simpa [Nat.add_comm] using pop_effect.bind rest

theorem peek_effect (depth : Nat) : Effect 0 0 (peek depth) := .look fun _ => peek_looks depth

theorem frame_effect : Effect 0 0 frame := .look fun _ => frame_looks

theorem setIp_effect (ip : Nat) : Effect 0 0 (setIp ip) := by
  intro m a m' _ hrun
  cases hrun
  refine .still ?_ ⟨ip, ?_⟩ <;> cases hframes : m.frames <;> simp [hframes, moved]

theorem readByte_effect : Effect 0 0 readByte :=
  frame_effect.after fun _ => (Effect.look fun _ => chunk_looks).after fun _ =>
    (Effect.demand _).after fun _ => (setIp_effect _).after fun _ => .pure _

/-! ### Cells -/

theorem closeCell_effect (slot : Nat) (cell : Handle) : Effect 0 0 (closeCell slot cell) :=
  (Effect.look fun _ => slotValue_looks slot).after fun _ => .onHeap _

theorem closeFrom_effect (slot : Nat) : Effect 0 0 (closeFrom slot) :=
  .read fun _ => .after (.change (fun _ => rfl) fun _ => rfl) fun _ =>
    .forM (fun _ => closeCell_effect _ _) _

theorem openCell_effect (slot : Nat) : Effect 0 0 (openCell slot) := by
  refine .read fun m => ?_
  cases m.openCells.find? slot with
  | some cell => exact .pure cell
  | none =>
      exact (Effect.withRoots _).after fun _ =>
        .after (.change (fun _ => rfl) fun _ => rfl) fun _ => .pure _

theorem captureAll_effect (closure : Handle) (count : Nat) :
    Effect 0 0 (captureAll closure count) := by
  induction count with
  | zero => exact .pure _
  | succ count ih =>
      refine Effect.after (readByte_effect.after fun _ => readByte_effect.after fun _ =>
        .ite ?_ ?_) fun _ => ih
      · exact frame_effect.after fun _ => (openCell_effect _).after fun _ => .onHeap _
      · exact (Effect.look fun _ => capturedCell_looks _).after fun _ => .onHeap _

/-! ### Instructions -/

theorem binary_effect (operation : Float → Float → Value) : Effect 2 1 (binary operation) := by
  refine (peek_effect 1).after fun left => (peek_effect 0).after fun right => ?_
  split
  · exact .pop fun _ => .pop fun _ => push_effect _
  · exact .raise _

theorem add_effect : Effect 2 1 add := by
  refine (peek_effect 1).after fun left => (peek_effect 0).after fun right => ?_
  split
  · exact .pop fun _ => .pop fun _ => push_effect _
  · exact (Effect.ask _).after fun _ => .ite (.raise _) ((Effect.ask _).after fun _ =>
      .ite (.raise _) ((Effect.withRoots _).after fun _ =>
        .pop fun _ => .pop fun _ => push_effect _))
  · exact .raise _

theorem negate_effect : Effect 1 1 negate := by
  refine (peek_effect 0).after fun v => ?_
  split
  · exact .pop fun _ => push_effect _
  · exact .raise _

theorem assignGlobal_effect (name : Handle) : Effect 0 0 (assignGlobal name) :=
  .read fun _ => .ite ((peek_effect 0).after fun _ => .change (fun _ => rfl) fun _ => rfl)
    ((Effect.ask _).after fun _ => .raise _)

theorem makeClosure_effect (index : Nat) : Effect 0 1 (makeClosure index) := by
  refine (Effect.look fun _ => constant_looks index).after fun v => ?_
  split
  · exact (Effect.withRoots _).after fun _ => (push_effect _).before fun _ =>
      (Effect.ask _).after fun _ => captureAll_effect _ _
  · exact .raise _

theorem jump_effect (distance : Nat) : Effect 0 0 (jump distance) :=
  frame_effect.after fun _ => setIp_effect _

theorem jumpBack_effect (distance : Nat) : Effect 0 0 (jumpBack distance) :=
  frame_effect.after fun _ => .ite (setIp_effect _) (.stop _)

theorem print_effect : Effect 1 0 print :=
  .pop fun _ => (Effect.ask _).after fun _ => .change (fun _ => rfl) fun _ => rfl

theorem closeTop_effect : Effect 1 0 closeTop :=
  .read fun _ => .ite (.after (.stop _) fun _ => (closeFrom_effect _).after fun _ =>
    .pop fun _ => .pure _) ((closeFrom_effect _).after fun _ => .pop fun _ => .pure _)

/-- An instruction that neither assigns a slot nor starts or ends a call takes no more values than
it looks at. -/
theorem execute_effect (operand : Nat) (other : op ≠ .setLocal ∧ op ≠ .setUpvalue ∧ op ≠ .call) :
    ∃ taken given, taken ≤ op.depth operand ∧ Effect taken given (execute op operand) := by
  have hname : Effect 0 0 (nameConstant operand) := .look fun _ => nameConstant_looks _
  have hcell : Effect 0 0 (capturedCell operand) := .look fun _ => capturedCell_looks _
  cases op with
  | constant =>
      exact ⟨0, 1, Nat.le_refl _, (Effect.look fun _ => constant_looks _).after fun _ =>
        push_effect _⟩
  | pushNil | pushTrue | pushFalse => exact ⟨0, 1, Nat.le_refl _, push_effect _⟩
  | pop => exact ⟨1, 0, Nat.le_refl _, .pop fun _ => .pure _⟩
  | getLocal =>
      exact ⟨0, 1, Nat.le_refl _, frame_effect.after fun _ =>
        (Effect.look fun _ => slotValue_looks _).after fun _ => push_effect _⟩
  | setLocal => exact absurd rfl other.1
  | getGlobal =>
      exact ⟨0, 1, Nat.le_refl _, hname.after fun _ =>
        (Effect.look fun _ => readGlobal_looks _).after fun _ => push_effect _⟩
  | defineGlobal =>
      exact ⟨1, 0, Nat.le_refl _, hname.after fun _ => (peek_effect 0).after fun _ =>
        .after (.change (fun _ => rfl) fun _ => rfl) fun _ => .pop fun _ => .pure _⟩
  | setGlobal => exact ⟨0, 0, Nat.zero_le _, hname.after fun _ => assignGlobal_effect _⟩
  | getUpvalue =>
      exact ⟨0, 1, Nat.le_refl _, hcell.after fun _ =>
        (Effect.look fun _ => readCell_looks _).after fun _ => push_effect _⟩
  | setUpvalue => exact absurd rfl other.2.1
  | equal => exact ⟨2, 1, Nat.le_refl _, .pop fun _ => .pop fun _ => push_effect _⟩
  | greater | less | subtract | multiply | divide => exact ⟨2, 1, Nat.le_refl _, binary_effect _⟩
  | add => exact ⟨2, 1, Nat.le_refl _, add_effect⟩
  | not => exact ⟨1, 1, Nat.le_refl _, .pop fun _ => push_effect _⟩
  | negate => exact ⟨1, 1, Nat.le_refl _, negate_effect⟩
  | print => exact ⟨1, 0, Nat.le_refl _, print_effect⟩
  | jump => exact ⟨0, 0, Nat.zero_le _, jump_effect _⟩
  | jumpIfFalse =>
      exact ⟨0, 0, Nat.zero_le _, (peek_effect 0).after fun _ => .ite (jump_effect _) (.pure _)⟩
  | loop => exact ⟨0, 0, Nat.zero_le _, jumpBack_effect _⟩
  | call => exact absurd rfl other.2.2
  | closure => exact ⟨0, 1, Nat.zero_le _, makeClosure_effect _⟩
  | closeUpvalue => exact ⟨1, 0, Nat.le_refl _, closeTop_effect⟩
  | giveBack => exact ⟨0, 0, Nat.zero_le _, .pure _⟩

end Lox.Machine
