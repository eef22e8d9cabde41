import Lox.Proofs.Machine.Tidy

/-!
# Where runtime errors come from

An instruction that raises a runtime error may have looked around before, and it may have
allocated an object, but it has not yet changed anything that outlives it: the stack, the globals,
the open cells and the printout are what they were before the instruction. What the error leaves
behind can therefore be told from the machine before the instruction.

Nothing is assumed of the code that runs. An instruction that pops its operands and then pushes a
result has room for it, or there was nothing to pop.

## Main definitions

* `Unspent`, `Intact` — a machine that has changed nothing that outlives an instruction, and one
  that has its active calls besides.
* `Early` — an end that is a runtime error only if an intact machine has raised it.
* `Looks`, `Silent` — actions that change nothing, and actions that raise nothing.

## Main results

* `step_early` — steps raise their errors early.
* `raise_inv`, `raise_closes` — what a runtime error records, and what it does to the machine that
  raises it.
-/

namespace Lox.Machine

variable {m m' mid : Machine} {α β : Type} {v : Value}

/-! ### Errors that are raised early -/

/-- A machine that differs from another one in its active calls and in garbage at most. -/
structure Unspent (m mid : Machine) : Prop where
  keeps : m.heap.Keeps m.rooted mid.heap
  rest : mid = { m with
    heap := mid.heap, frames := mid.frames, hostCalls := mid.hostCalls }

/-- A machine that differs from another one in garbage at most, and has the same active calls. -/
structure Intact (m mid : Machine) : Prop where
  keeps : m.heap.Keeps m.rooted mid.heap
  rest : mid = { m with heap := mid.heap, hostCalls := mid.hostCalls }

theorem Intact.refl (m : Machine) : Intact m m := ⟨.refl _ _, rfl⟩

theorem Intact.unspent (intact : Intact m mid) : Unspent m mid := by
  refine ⟨intact.keeps, ?_⟩
  rw [intact.rest]

/-- If a run ends with a runtime error, an intact machine has raised it. -/
def Early (m : Machine) (result : EStateM.Result Interruption Machine α) : Prop :=
  ∀ e m', result = .error (.raised e) m' →
    ∃ mid cause, Intact m mid ∧ (raise cause : Action Unit) mid = .error (.raised e) m'

/-- An answer is no error. -/
theorem Early.answer (a : α) : Early m (.ok a m') := fun _ _ hrun => by cases hrun

/-- Raising an error never answers, so its type does not matter. -/
theorem raise_eq (cause : Cause) (m : Machine) :
    ∃ i m', ∀ α, (raise cause : Action α) m = .error i m' := by
  cases htrace : ask (fun m => m.frames.mapM (traceLine m.heap)) m with
  | error i mid => exact ⟨i, mid, fun α => by rw [raise, bind_of_error htrace]⟩
  | ok trace mid =>
      cases hreset : reset mid with
      | error i last =>
          exact ⟨i, last, fun α => by rw [raise, bind_of_ok htrace, bind_of_error hreset]⟩
      | ok u last =>
          exact ⟨_, last, fun α => by rw [raise, bind_of_ok htrace, bind_of_ok hreset]; rfl⟩

/-- An intact machine raises its errors early. -/
theorem Intact.raise (intact : Intact m mid) (cause : Cause) :
    Early m ((Machine.raise cause : Action α) mid) := by
  intro e m' hrun
  obtain ⟨i, last, hraise⟩ := raise_eq cause mid
  rw [hraise] at hrun
  cases hrun
  exact ⟨mid, cause, intact, hraise Unit⟩

/-! ### Actions that only look -/

/-- The end of an action that looks at the machine: it answers without changing anything, or it
raises an error at once, or it faults. -/
inductive Looks (m : Machine) : EStateM.Result Interruption Machine α → Prop
  | ok {a : α} : Looks m (.ok a m)
  | raised {cause : Cause} : Looks m ((raise cause : Action α) m)
  | fault {f : Fault} {m' : Machine} : Looks m (.error (.fault f) m')

/-- What follows a look is raised early if it is. -/
theorem Early.look {x : Action α} {f : α → Action β} (looks : Looks m (x m))
    (rest : ∀ a, Early m (f a m)) : Early m ((x >>= f) m) := by
  intro e m' hrun
  generalize hx : x m = result at looks
  cases looks with
  | ok =>
      rw [bind_of_ok hx] at hrun
      exact rest _ e m' hrun
  | @raised cause =>
      obtain ⟨i, last, hraise⟩ := raise_eq cause m
      rw [hraise] at hx
      rw [bind_of_error hx] at hrun
      cases hrun
      exact ⟨m, cause, .refl m, hraise Unit⟩
  | fault =>
      rw [bind_of_error hx] at hrun
      cases hrun

namespace Looks

theorem bind {x : Action α} {f : α → Action β} (first : Looks m (x m))
    (rest : ∀ a, Looks m (f a m)) : Looks m ((x >>= f) m) := by
  generalize hx : x m = result at first
  cases first with
  | ok =>
      rw [bind_of_ok hx]
      exact rest _
  | @raised cause =>
      obtain ⟨i, last, hraise⟩ := raise_eq cause m
      rw [hraise] at hx
      rw [bind_of_error hx, ← hraise β]
      exact .raised
  | fault =>
      rw [bind_of_error hx]
      exact .fault

/-- Looking at the machine itself. -/
theorem read {f : Machine → Action α} (rest : Looks m (f m m)) : Looks m ((get >>= f) m) := rest

theorem ask (question : Machine → Except Fault α) : Looks m (ask question m) := by
  rcases ask_cases question m with ⟨a, -, hask⟩ | ⟨f, hask⟩ <;> rw [hask]
  · exact .ok
  · exact .fault

theorem demand (o : Option α) : Looks m (demand o m) := by
  cases o with
  | none => exact .fault
  | some a => exact .ok

end Looks

theorem frame_looks : Looks m (frame m) := .read (.demand _)

theorem chunk_looks : Looks m (chunk m) := .bind frame_looks fun _ => .bind (.ask _) fun _ => .ok

theorem constant_looks (index : Nat) : Looks m (constant index m) :=
  .bind chunk_looks fun _ => .demand _

theorem slotValue_looks (slot : Nat) : Looks m (slotValue slot m) := .read (.demand _)

theorem peek_looks (depth : Nat) : Looks m (peek depth m) := by
  refine .read ?_
  by_cases hlt : depth < m.stack.size
  · rw [if_pos hlt]
    exact .demand _
  · rw [if_neg hlt]
    exact .fault

theorem nameConstant_looks (index : Nat) : Looks m (nameConstant index m) := by
  refine .bind (constant_looks index) fun v => ?_
  cases v with
  | object h =>
      refine .bind (.ask _) fun isString => ?_
      cases isString with
      | true => exact .ok
      | false => exact .bind (.ask _) fun _ => .raised
  | nil | bool | number => exact .bind (.ask _) fun _ => .raised

theorem readGlobal_looks (name : Handle) : Looks m (readGlobal name m) := by
  refine .read ?_
  cases m.globals[name]? with
  | some v => exact .ok
  | none => exact .bind (.ask _) fun _ => .raised

theorem capturedCell_looks (index : Nat) : Looks m (capturedCell index m) :=
  .bind frame_looks fun _ => .bind (.ask _) fun _ => .demand _

theorem readCell_looks (cell : Handle) : Looks m (readCell cell m) := by
  refine .bind (.ask _) fun state => ?_
  cases state with
  | opened slot => exact slotValue_looks slot
  | closed v => exact .ok

/-! ### Actions that raise nothing -/

/-- An action that never raises a runtime error. -/
def Silent (x : Action α) : Prop := ∀ m e m', x m ≠ .error (.raised e) m'

theorem Silent.early {x : Action α} (silent : Silent x) : Early m (x mid) :=
  fun e m' hrun => absurd hrun (silent mid e m')

namespace Silent

theorem pure (a : α) : Silent (Pure.pure a : Action α) := fun _ _ _ hrun => by cases hrun

theorem bind {x : Action α} {f : α → Action β} (first : Silent x) (rest : ∀ a, Silent (f a)) :
    Silent (x >>= f) := by
  intro m e m' hrun
  cases hx : x m with
  | ok a mid =>
      rw [bind_of_ok hx] at hrun
      exact rest a mid e m' hrun
  | error i mid =>
      rw [bind_of_error hx] at hrun
      cases hrun
      exact first m e m' hx

theorem read {f : Machine → Action α} (rest : ∀ m, Silent (f m)) : Silent (get >>= f) :=
  fun m => rest m m

theorem change (f : Machine → Machine) : Silent (modify f) := fun _ _ _ hrun => by cases hrun

theorem stop (f : Fault) : Silent (stop f : Action α) := fun _ _ _ hrun => by cases hrun

theorem ask (question : Machine → Except Fault α) : Silent (ask question) := by
  intro m e m' hrun
  rcases ask_cases question m with ⟨a, -, hask⟩ | ⟨f, hask⟩ <;> rw [hask] at hrun <;> cases hrun

theorem demand (o : Option α) : Silent (demand o) := by
  cases o with
  | none => exact .stop _
  | some a => exact .pure a

theorem ite {p : Prop} [Decidable p] {x y : Action α} (yes : Silent x) (no : Silent y) :
    Silent (if p then x else y) := by
  split
  · exact yes
  · exact no

theorem onHeap (operation : HeapM α) : Silent (onHeap operation) := by
  intro m e m' hrun
  unfold Machine.onHeap at hrun
  split at hrun <;> cases hrun

theorem withRoots (operation : List Handle → HeapM α) : Silent (withRoots operation) := by
  intro m e m' hrun
  unfold Machine.withRoots at hrun
  split at hrun <;> cases hrun

theorem forM {γ : Type} {f : γ → Action PUnit} (each : ∀ c, Silent (f c)) (cs : List γ) :
    Silent (cs.forM f) := by
  induction cs with
  | nil => exact .pure _
  | cons c cs ih => exact .bind (each c) fun _ => ih

end Silent

theorem frame_silent : Silent frame := .read fun _ => .demand _

theorem readByte_silent : Silent readByte :=
  .bind frame_silent fun _ =>
    .bind (.bind frame_silent fun _ => .bind (.ask _) fun _ => .pure _) fun _ =>
      .bind (.demand _) fun _ => .bind (.change _) fun _ => .pure _

theorem peek_silent (depth : Nat) : Silent (peek depth) :=
  .read fun _ => .ite (.demand _) (.stop _)

theorem pop_silent : Silent pop := .read fun _ => .bind (.change _) fun _ => .pure _

theorem setSlot_silent (slot : Nat) (v : Value) : Silent (setSlot slot v) :=
  .read fun _ => .ite (.change _) (.stop _)

theorem closeCell_silent (slot : Nat) (cell : Handle) : Silent (closeCell slot cell) :=
  .bind (.read fun _ => .demand _) fun _ => .onHeap _

theorem closeFrom_silent (slot : Nat) : Silent (closeFrom slot) :=
  .read fun _ => .bind (.change _) fun _ => .forM (fun _ => closeCell_silent _ _) _

theorem openCell_silent (slot : Nat) : Silent (openCell slot) := by
  refine .read fun m => ?_
  cases m.openCells.find? slot with
  | some cell => exact .pure cell
  | none => exact .bind (.withRoots _) fun _ => .bind (.change _) fun _ => .pure _

theorem capturedCell_silent (index : Nat) : Silent (capturedCell index) :=
  .bind frame_silent fun _ => .bind (.ask _) fun _ => .demand _

theorem writeCell_silent (cell : Handle) (v : Value) : Silent (writeCell cell v) := by
  refine .bind (.ask _) fun state => ?_
  cases state with
  | opened slot => exact setSlot_silent slot v
  | closed _ => exact .onHeap _

theorem captureAll_silent (closure : Handle) (count : Nat) : Silent (captureAll closure count) := by
  induction count with
  | zero => exact .pure _
  | succ count ih =>
      refine .bind (.bind readByte_silent fun _ => .bind readByte_silent fun _ => .ite ?_ ?_)
        fun _ => ih
      · exact .bind frame_silent fun _ => .bind (openCell_silent _) fun _ => .onHeap _
      · exact .bind (capturedCell_silent _) fun _ => .onHeap _

theorem jump_silent (distance : Nat) : Silent (jump distance) :=
  .bind frame_silent fun _ => .change _

theorem jumpBack_silent (distance : Nat) : Silent (jumpBack distance) :=
  .bind frame_silent fun _ => .ite (.change _) (.stop _)

theorem print_silent : Silent print :=
  .bind pop_silent fun _ => .bind (.ask _) fun _ => .change _

theorem closeTop_silent : Silent closeTop :=
  .read fun _ => .ite (.bind (.stop _) fun _ => .bind (closeFrom_silent _) fun _ =>
    .bind pop_silent fun _ => .pure _)
    (.bind (closeFrom_silent _) fun _ => .bind pop_silent fun _ => .pure _)

/-! ### Pushing -/

/-- A stack that is shorter than another one, or the same. -/
def Shortens (stack stack' : Array Value) : Prop := stack'.size < stack.size ∨ stack' = stack

namespace Shortens

variable {stack stack' last : Array Value}

theorem trans (first : Shortens stack stack') (second : Shortens stack' last) :
    Shortens stack last := by
  rcases second with second | rfl
  · rcases first with first | rfl
    · exact .inl (Nat.lt_trans second first)
    · exact .inl second
  · exact first

theorem pop (stack : Array Value) : Shortens stack stack.pop := by
  by_cases hempty : stack.size = 0
  · exact .inr (by rw [Array.eq_empty_of_size_eq_zero hempty]; rfl)
  · exact .inl (by rw [Array.size_pop]; omega)

theorem shrink (stack : Array Value) (size : Nat) : Shortens stack (stack.shrink size) := by
  by_cases hlt : size < stack.size
  · exact .inl (by rw [Array.size_shrink]; omega)
  · refine .inr (Array.toList_inj.mp ?_)
    rw [Array.toList_shrink, List.take_of_length_le (by simpa using hlt)]

end Shortens

/-- Pushing fails in one way. -/
theorem raise_of_push {i : Interruption} (run : Machine.push v m = .error i m') :
    (Machine.raise .stackOverflow : Action Unit) m = .error i m' := by
  unfold Machine.push at run
  split at run
  · exact run
  · cases run

/-- A push fails early if nothing has been popped. -/
theorem Intact.push (intact : Intact m mid) (v : Value) : Early m (Machine.push v mid) := by
  unfold Machine.push
  split
  · exact intact.raise _
  · exact .answer _

/-- A push behind pops has room, or there was nothing to pop. -/
theorem Intact.pushShortened (intact : Intact m mid) (room : m.stack.size ≤ m.stackMax)
    {stack : Array Value} (shortens : Shortens m.stack stack) (v : Value) :
    Early m (Machine.push v { mid with stack }) := by
  rcases shortens with hlt | rfl
  · have hmax : mid.stackMax = m.stackMax := by rw [intact.rest]
    have hroom : ({ mid with stack } : Machine).stack.size < mid.stackMax := by
      simp only [hmax]
      omega
    rw [push_of_room hroom]
    exact .answer _
  · have hsame : ({ mid with stack := m.stack } : Machine) = mid := by rw [intact.rest]
    rw [hsame]
    exact intact.push v

/-- A result takes the place of the value on top of the stack. -/
theorem Intact.replaceTop (intact : Intact m mid) (room : m.stack.size ≤ m.stackMax)
    (result : Value → Value) :
    Early m ((do let v ← pop; Machine.push (result v)) mid) := by
  rw [bind_of_ok (pop_apply mid)]
  refine intact.pushShortened room ?_ _
  rw [show mid.stack = m.stack by rw [intact.rest]]
  exact .pop _

/-- A result takes the place of the two values on top of the stack. -/
theorem Intact.replaceTwo (intact : Intact m mid) (room : m.stack.size ≤ m.stackMax)
    (result : Value → Value → Value) :
    Early m ((do let v ← pop; let w ← pop; Machine.push (result v w)) mid) := by
  rw [bind_of_ok (pop_apply mid), bind_of_ok (pop_apply _)]
  refine intact.pushShortened room ?_ _
  rw [show mid.stack = m.stack by rw [intact.rest]]
  exact (Shortens.pop _).trans (.pop _)

/-! ### Instructions -/

/-- A heap that has been given an allocation keeps what the machine does. -/
theorem Intact.withRoots {operation : List Handle → HeapM α} {f : α → Action β}
    (keeps : ∀ a heap, operation m.rooted m.heap = .ok a heap → m.heap.Keeps m.rooted heap)
    (rest : ∀ a mid, Intact m mid → Early m (f a mid)) :
    Early m ((withRoots operation >>= f) m) := by
  cases hrun : operation m.rooted m.heap with
  | ok a heap =>
      have hroots : Machine.withRoots operation m = .ok a { m with heap } := by
        unfold Machine.withRoots
        rw [show operation (roots m.stack m.frames m.openCells m.globals) m.heap = _ from hrun]
      rw [bind_of_ok hroots]
      exact rest a _ ⟨keeps a heap hrun, rfl⟩
  | error f heap =>
      have hroots : Machine.withRoots operation m = .error (.fault f) { m with heap } := by
        unfold Machine.withRoots
        rw [show operation (roots m.stack m.frames m.openCells m.globals) m.heap = _ from hrun]
      rw [bind_of_error hroots]
      exact fun e m' hrun => by cases hrun

theorem binary_early (room : m.stack.size ≤ m.stackMax) (operation : Float → Float → Value) :
    Early m (binary operation m) := by
  refine .look (peek_looks 1) fun left => .look (peek_looks 0) fun right => ?_
  split
  · exact (Intact.refl m).replaceTwo room fun _ _ => _
  · exact (Intact.refl m).raise _

theorem add_early (orderly : m.heap.Orderly) (room : m.stack.size ≤ m.stackMax) :
    Early m (add m) := by
  refine .look (peek_looks 1) fun left => .look (peek_looks 0) fun right => ?_
  split
  · exact (Intact.refl m).replaceTwo room fun _ _ => _
  · refine .look (.ask _) fun isString => ?_
    split
    · exact (Intact.refl m).raise _
    · refine .look (.ask _) fun isString => ?_
      split
      · exact (Intact.refl m).raise _
      · refine Intact.withRoots (fun joined heap hrun => ?_) fun joined mid intact =>
          intact.replaceTwo room fun _ _ => _
        obtain ⟨text, hrun⟩ := Heap.intern_of_concat hrun
        exact (Heap.internedAs_of_ok orderly hrun).keeps
  · exact (Intact.refl m).raise _

theorem negate_early (room : m.stack.size ≤ m.stackMax) : Early m (negate m) := by
  refine .look (peek_looks 0) fun v => ?_
  split
  · exact (Intact.refl m).replaceTop room fun _ => _
  · exact (Intact.refl m).raise _

theorem assignGlobal_early (name : Handle) : Early m (assignGlobal name m) := by
  unfold assignGlobal
  rw [bind_of_ok (get_apply m)]
  split
  · exact (Silent.bind (peek_silent 0) fun _ => .change _).early
  · exact .look (.ask _) fun _ => (Intact.refl m).raise _

/-- A call with too few or too many arguments, and one call too many, change nothing. -/
theorem call_early (closure : Handle) (count : Nat) : Early m (call closure count m) := by
  refine .look (.ask _) fun c => .look (.ask _) fun f => ?_
  rw [bind_of_ok (get_apply m)]
  split
  · exact (Intact.refl m).raise _
  split
  · exact (Intact.refl m).raise _
  · exact (Silent.ite (.stop _) (.change _)).early

theorem callNative_early (room : m.stack.size ≤ m.stackMax) (native : Native) (count : Nat) :
    Early m (callNative native count m) := by
  have counted : Intact m { m with hostCalls := m.hostCalls + 1 } := ⟨.refl _ _, rfl⟩
  unfold callNative
  rw [bind_of_ok (get_apply m)]
  exact counted.pushShortened room (.shrink _ _) _

theorem callValue_early (room : m.stack.size ≤ m.stackMax) (count : Nat) :
    Early m (callValue count m) := by
  refine .look (peek_looks count) fun v => ?_
  cases v with
  | object h =>
      refine .look (.ask _) fun kind => ?_
      cases kind with
      | closure => exact call_early h count
      | native => exact .look (.ask _) fun native => callNative_early room native count
      | string | function | cell => exact (Intact.refl m).raise _
  | nil | bool | number => exact (Intact.refl m).raise _

theorem makeClosure_early (orderly : m.heap.Orderly) (index : Nat) :
    Early m (makeClosure index m) := by
  refine .look (constant_looks index) fun v => ?_
  cases v with
  | object function =>
      refine Intact.withRoots (fun closure heap hrun => ?_) fun closure mid intact => ?_
      · obtain ⟨room, hrun⟩ := Heap.allocate_of_allocateClosure hrun
        exact (Heap.allocated_of_ok orderly hrun).keeps
      · intro e m' hrun
        cases hpush : push (.object closure) mid with
        | error i last =>
            rw [bind_of_error hpush] at hrun
            cases hrun
            exact intact.push _ e m' hpush
        | ok u last =>
            rw [bind_of_ok hpush] at hrun
            exact absurd hrun
              (Silent.bind (.ask _) (fun _ => captureAll_silent _ _) last e m')
  | nil | bool | number => exact (Intact.refl m).raise _

/-- Every instruction but the end of a call raises its errors early. -/
theorem execute_early (orderly : m.heap.Orderly) (room : m.stack.size ≤ m.stackMax) (op : OpCode)
    (operand : Nat) : Early m (execute op operand m) := by
  have intact := Intact.refl m
  cases op with
  | constant => exact .look (constant_looks _) fun v => intact.push v
  | pushNil | pushTrue | pushFalse => exact intact.push _
  | pop => exact (Silent.bind pop_silent fun _ => .pure _).early
  | getLocal =>
      exact .look frame_looks fun _ => .look (slotValue_looks _) fun v => intact.push v
  | setLocal =>
      exact (Silent.bind frame_silent fun _ => .bind (peek_silent 0) fun _ =>
        setSlot_silent _ _).early
  | getGlobal =>
      exact .look (nameConstant_looks _) fun _ => .look (readGlobal_looks _) fun v =>
        intact.push v
  | defineGlobal =>
      exact .look (nameConstant_looks _) fun _ => (Silent.bind (peek_silent 0) fun _ =>
        .bind (.change _) fun _ => .bind pop_silent fun _ => .pure _).early
  | setGlobal => exact .look (nameConstant_looks _) fun name => assignGlobal_early name
  | getUpvalue =>
      exact .look (capturedCell_looks _) fun _ => .look (readCell_looks _) fun v =>
        intact.push v
  | setUpvalue =>
      exact (Silent.bind (capturedCell_silent _) fun _ => .bind (peek_silent 0) fun _ =>
        writeCell_silent _ _).early
  | equal => exact intact.replaceTwo room fun right left => .bool (left.same right)
  | greater | less | subtract | multiply | divide => exact binary_early room _
  | add => exact add_early orderly room
  | not => exact intact.replaceTop room fun v => .bool v.isFalsey
  | negate => exact negate_early room
  | print => exact print_silent.early
  | jump => exact (jump_silent _).early
  | jumpIfFalse =>
      exact (Silent.bind (peek_silent 0) fun _ => .ite (jump_silent _) (.pure _)).early
  | loop => exact (jumpBack_silent _).early
  | call => exact callValue_early room _
  | closure => exact makeClosure_early orderly _
  | closeUpvalue => exact closeTop_silent.early
  | giveBack => exact (Silent.pure ()).early

/-! ### Closing cells -/

/-- Closing a cell copies the value that its slot has. -/
theorem closeCell_cases {slot : Nat} {cell : Handle} (run : closeCell slot cell m = .ok () m') :
    ∃ v, m.stack[slot]? = some v ∧ m.heap.Live cell ∧
      m' = { m with heap := m.heap.replace cell (.cell (.closed v)) } := by
  obtain ⟨v, mid, hvalue, hset⟩ := bind_eq_ok_iff.mp run
  rw [slotValue, bind_of_ok (get_apply m)] at hvalue
  cases hv : m.stack[slot]? with
  | none =>
      rw [hv] at hvalue
      cases hvalue
  | some w =>
      rw [hv] at hvalue
      cases hvalue
      rcases setCell_cases cell (.closed v) m with ⟨old, hold, hok⟩ | ⟨f, herror⟩
      · cases hset.symm.trans hok
        exact ⟨v, rfl, ⟨_, hold⟩, rfl⟩
      · cases hset.symm.trans herror

/-- Closing cells one by one changes these cells only, and every cell that stands for one slot
gets the value of that slot. -/
theorem closing_closes {closing : List (Nat × Handle)}
    (run : (closing.forM fun (slot, cell) => closeCell slot cell : Action Unit) m = .ok () m') :
    m' = { m with heap := m'.heap } ∧
      (∀ g, (∀ slot, (slot, g) ∉ closing) → m'.heap.object? g = m.heap.object? g) ∧
      ∀ slot g, (slot, g) ∈ closing → (∀ other, (other, g) ∈ closing → other = slot) →
        ∃ v, m.stack[slot]? = some v ∧ m'.heap.object? g = some (.cell (.closed v)) := by
  induction closing generalizing m with
  | nil =>
      cases run
      exact ⟨rfl, fun _ _ => rfl, fun _ _ hmem => absurd hmem List.not_mem_nil⟩
  | cons entry closing ih =>
      obtain ⟨first, cell⟩ := entry
      obtain ⟨⟨⟩, mid, hclose, hrest⟩ := bind_eq_ok_iff.mp run
      obtain ⟨v, hv, hlive, heq⟩ := closeCell_cases hclose
      obtain ⟨hsame, hothers, hclosed⟩ := ih hrest
      have hstack : mid.stack = m.stack := by rw [heq]
      have hview : ∀ g, mid.heap.object? g =
          if g = cell then some (.cell (.closed v)) else m.heap.object? g := fun g => by
        rw [heq]
        exact Heap.object?_replace hlive
      refine ⟨by rw [hsame, heq], fun g hg => ?_, fun slot g hmem hunique => ?_⟩
      · have hne : g ≠ cell := fun h => hg first (by simp [h])
        rw [hothers g fun slot hslot => hg slot (List.mem_cons_of_mem _ hslot), hview, if_neg hne]
      · by_cases hagain : ∃ other, (other, g) ∈ closing
        · -- the cell is closed again later, with the value of the same slot
          obtain ⟨other, hother⟩ := hagain
          obtain rfl := hunique other (List.mem_cons_of_mem _ hother)
          rw [← hstack]
          exact hclosed other g hother fun third hthird =>
            hunique third (List.mem_cons_of_mem _ hthird)
        · have hnone : ∀ other, (other, g) ∉ closing := fun other hother =>
            hagain ⟨other, hother⟩
          obtain ⟨rfl, rfl⟩ : slot = first ∧ g = cell := by
            rcases List.mem_cons.mp hmem with hentry | hmem
            · exact Prod.mk.inj hentry
            · exact absurd hmem (hnone slot)
          exact ⟨v, hv, by rw [hothers g hnone, hview, if_pos rfl]⟩

/-- Closing cells on an empty stack succeeds only if there are none. -/
theorem closeFrom_of_empty {slot : Nat} (empty : m.stack = #[])
    (run : closeFrom slot m = .ok () m') : m' = m := by
  rw [closeFrom, bind_of_ok (get_apply m)] at run
  simp only [OpenCells.splitFrom] at run
  rw [bind_of_ok (modify_apply _ m)] at run
  have hsplit := List.takeWhile_append_dropWhile (p := fun e : Nat × Handle => decide (e.1 < slot))
    (l := m.openCells.entries)
  cases hclosing : m.openCells.entries.dropWhile (·.1 < slot) with
  | nil =>
      rw [hclosing] at run
      rw [hclosing, List.append_nil] at hsplit
      cases run
      rw [hsplit]
  | cons entry closing =>
      rw [hclosing] at run
      obtain ⟨⟨⟩, mid, hclose, -⟩ := bind_eq_ok_iff.mp run
      obtain ⟨v, hv, -⟩ := closeCell_cases hclose
      simp [empty] at hv

/-- Closing cells leaves the stack as it is. -/
theorem closeFrom_stack {slot : Nat} (run : closeFrom slot m = .ok () m') :
    m'.stack = m.stack ∧ m'.stackMax = m.stackMax := by
  rw [closeFrom, bind_of_ok (get_apply m)] at run
  simp only [OpenCells.splitFrom] at run
  rw [bind_of_ok (modify_apply _ m)] at run
  rw [(closing_closes run).1]
  exact ⟨rfl, rfl⟩

/-! ### The end of a call -/

/-- The result of a call finds room where the callee was, unless there was nothing to pop. -/
theorem giveBack_raises {e : RuntimeError} (room : m.stack.size ≤ m.stackMax)
    (run : giveBack m = .error (.raised e) m') :
    m.stack = #[] ∧
      ∃ mid cause, Unspent m mid ∧ (raise cause : Action Unit) mid = .error (.raised e) m' := by
  rw [giveBack, bind_of_ok (pop_apply m), bind_of_ok (get_apply _)] at run
  cases hframes : m.frames with
  | nil =>
      rw [hframes] at run
      cases run
  | cons fr outer =>
      rw [hframes] at run
      simp only at run
      rw [bind_of_ok (modify_apply _ _)] at run
      cases hclose : closeFrom fr.slots { m with stack := m.stack.pop, frames := outer } with
      | error i last =>
          rw [bind_of_error hclose] at run
          cases run
          exact absurd hclose (closeFrom_silent _ _ _ _)
      | ok u mid =>
          rw [bind_of_ok hclose, truncate, bind_of_ok (modify_apply _ _)] at run
          obtain ⟨hstack, hmax⟩ := closeFrom_stack hclose
          split at run
          · cases run
          rcases (Shortens.pop m.stack).trans (.shrink _ fr.slots) with hlt | hsame
          · rw [bind_of_ok (push_of_room (by simp only [hstack, hmax]; omega))] at run
            cases run
          · -- there was nothing on the stack
            have hempty : m.stack = #[] := by
              have hsize := congrArg Array.size hsame
              rw [Array.size_shrink, Array.size_pop] at hsize
              exact Array.eq_empty_of_size_eq_zero (by omega)
            obtain rfl := closeFrom_of_empty (by simp [hempty]) hclose
            cases hresult : push (m.stack.back?.getD .nil)
                { m with stack := m.stack.pop.shrink fr.slots, frames := outer } with
            | ok u last =>
                rw [bind_of_ok hresult] at run
                cases run
            | error i last =>
                rw [bind_of_error hresult] at run
                cases run
                refine ⟨hempty, _, _, ?_, raise_of_push hresult⟩
                exact ⟨.refl _ _, by rw [hsame]⟩

/-! ### Steps -/

/-- A machine that has moved within the code of its innermost call. -/
structure Moved (m mid : Machine) : Prop where
  rest : mid = { m with frames := mid.frames }
  closures : mid.frames.map Frame.closure = m.frames.map Frame.closure

theorem Moved.refl (m : Machine) : Moved m m := ⟨rfl, rfl⟩

/-- Moving on is nothing that an error leaves behind. -/
theorem Moved.unspent {last : Machine} (moved : Moved m mid) (unspent : Unspent mid last) :
    Unspent m last := by
  have hrooted : mid.rooted = m.rooted := by
    rw [rooted, rooted, roots, roots, moved.closures, moved.rest]
  have hkeeps := unspent.keeps
  rw [hrooted, show mid.heap = m.heap by rw [moved.rest]] at hkeeps
  refine ⟨hkeeps, ?_⟩
  rw [unspent.rest, moved.rest]

/-- What holds of a machine but for its active calls. -/
theorem Moved.fit (moved : Moved m mid) (orderly : m.heap.Orderly)
    (room : m.stack.size ≤ m.stackMax) : mid.heap.Orderly ∧ mid.stack.size ≤ mid.stackMax := by
  rw [moved.rest]
  exact ⟨orderly, room⟩

theorem setIp_moves (ip : Nat) (m : Machine) : ∃ mid, setIp ip m = .ok () mid ∧ Moved m mid := by
  refine ⟨_, modify_apply _ m, ?_⟩
  cases hframes : m.frames with
  | nil =>
      refine ⟨?_, by simp [hframes]⟩
      cases m
      cases hframes
      rfl
  | cons fr outer => exact ⟨rfl, by simp [hframes]⟩

/-- The end of an action that reads code: it raises its errors early, if it has moved or not, and
otherwise it moves. -/
structure Advances (m : Machine) (result : EStateM.Result Interruption Machine α) : Prop where
  early : ∃ mid, Moved m mid ∧ Early mid result
  moves : ∀ a mid, result = .ok a mid → Moved m mid

theorem Advances.look {x : Action α} {f : α → Action β} (looks : Looks m (x m))
    (rest : ∀ a, Advances m (f a m)) : Advances m ((x >>= f) m) := by
  generalize hx : x m = result at looks
  cases looks with
  | ok =>
      rw [bind_of_ok hx]
      exact rest _
  | @raised cause =>
      obtain ⟨i, last, hraise⟩ := raise_eq cause m
      rw [hraise] at hx
      rw [bind_of_error hx, ← hraise β]
      refine ⟨⟨m, .refl m, (Intact.refl m).raise cause⟩, fun b mid hrun => ?_⟩
      cases (hraise β).symm.trans hrun
  | fault =>
      rw [bind_of_error hx]
      exact ⟨⟨m, .refl m, fun e m' hrun => by cases hrun⟩, fun b mid hrun => by cases hrun⟩

/-- Reading an instruction moves on, or finds a byte that is no instruction. -/
theorem fetch_advances (m : Machine) : Advances m (fetch m) := by
  refine .look frame_looks fun fr => .look chunk_looks fun c => .look (.demand _) fun byte => ?_
  cases OpCode.ofByte? byte with
  | none =>
      obtain ⟨mid, hmove, moved⟩ := setIp_moves (fr.ip + 1) m
      simp only
      rw [bind_of_ok hmove]
      refine ⟨⟨mid, moved, (Intact.refl mid).raise _⟩, fun a last hrun => ?_⟩
      obtain ⟨i, end', hraise⟩ := raise_eq (.unknownOpCode byte) mid
      rw [hraise] at hrun
      cases hrun
  | some op =>
      refine .look (.demand _) fun operand => ?_
      obtain ⟨mid, hmove, moved⟩ := setIp_moves (fr.ip + 1 + op.width) m
      rw [bind_of_ok hmove]
      refine ⟨⟨m, .refl m, .answer _⟩, fun a last hrun => ?_⟩
      cases hrun
      exact moved

/-- An instruction other than the end of a call raises its errors from where it has been read. -/
theorem step_early_of_fetch {op : OpCode} {operand : Nat} (orderly : m.heap.Orderly)
    (room : m.stack.size ≤ m.stackMax) (hfetch : fetch m = .ok (op, operand) mid)
    (other : op ≠ .giveBack) : Early mid (step m) := by
  obtain ⟨horderly, hroom⟩ := ((fetch_advances m).moves _ _ hfetch).fit orderly room
  intro e m' hrun
  rw [step, bind_of_ok hfetch] at hrun
  simp only [if_neg other] at hrun
  cases hexecute : execute op operand mid with
  | ok u last =>
      rw [bind_of_ok hexecute] at hrun
      cases hrun
  | error i last =>
      rw [bind_of_error hexecute] at hrun
      cases hrun
      exact execute_early horderly hroom op operand e m' hexecute

/-- Whatever a step raises, an unspent machine raises. -/
theorem step_early {e : RuntimeError} (orderly : m.heap.Orderly) (room : m.stack.size ≤ m.stackMax)
    (run : step m = .error (.raised e) m') :
    ∃ mid cause, Unspent m mid ∧ (raise cause : Action Unit) mid = .error (.raised e) m' := by
  obtain ⟨⟨mid, moved, hearly⟩, hmoves⟩ := fetch_advances m
  cases hfetch : fetch m with
  | error i last =>
      rw [step, bind_of_error hfetch] at run
      cases run
      obtain ⟨last, cause, hintact, hraise⟩ := hearly e m' hfetch
      exact ⟨last, cause, moved.unspent hintact.unspent, hraise⟩
  | ok instruction mid =>
      have moved := hmoves _ _ hfetch
      obtain ⟨op, operand⟩ := instruction
      by_cases hback : op = .giveBack
      · rw [step, bind_of_ok hfetch] at run
        simp only [if_pos hback] at run
        obtain ⟨-, last, cause, unspent, hraise⟩ := giveBack_raises (moved.fit orderly room).2 run
        exact ⟨last, cause, moved.unspent unspent, hraise⟩
      · obtain ⟨last, cause, hintact, hraise⟩ :=
          step_early_of_fetch orderly room hfetch hback e m' run
        exact ⟨last, cause, moved.unspent hintact.unspent, hraise⟩

/-! ### What an error leaves behind -/

/-- Raising an error records the trace of the active calls and then ends them. -/
theorem raise_inv {cause : Cause} {e : RuntimeError}
    (run : (raise cause : Action Unit) m = .error (.raised e) m') :
    e.cause = cause ∧ m.frames.mapM (traceLine m.heap) = .ok e.trace ∧ reset m = .ok () m' := by
  rcases ask_cases (fun m => m.frames.mapM (traceLine m.heap)) m with
    ⟨trace, htrace, hask⟩ | ⟨f, hask⟩
  swap
  · rw [raise, bind_of_error hask] at run
    cases run
  rw [raise, bind_of_ok hask] at run
  cases hreset : reset m with
  | error i last =>
      rw [bind_of_error hreset] at run
      cases run
      have hsilent : Silent reset := .bind (closeFrom_silent 0) fun _ => .change _
      exact absurd hreset (hsilent _ _ _)
  | ok u last =>
      rw [bind_of_ok hreset] at run
      cases run
      exact ⟨rfl, htrace, rfl⟩

/-- A runtime error closes the open cells and empties the stacks. It changes nothing else. -/
theorem raise_closes {cause : Cause} {e : RuntimeError}
    (run : (raise cause : Action Unit) m = .error (.raised e) m') :
    m' = { m with heap := m'.heap, stack := #[], frames := [], openCells := {} } ∧
      (∀ g, (∀ slot, (slot, g) ∉ m.openCells.entries) →
        m'.heap.object? g = m.heap.object? g) ∧
      ∀ slot g, (slot, g) ∈ m.openCells.entries →
        (∀ other, (other, g) ∈ m.openCells.entries → other = slot) →
        ∃ v, m.stack[slot]? = some v ∧ m'.heap.object? g = some (.cell (.closed v)) := by
  obtain ⟨-, -, hreset⟩ := raise_inv run
  obtain ⟨⟨⟩, mid, hclose, hend⟩ := bind_eq_ok_iff.mp hreset
  cases hend
  rw [closeFrom, bind_of_ok (get_apply m)] at hclose
  simp only [OpenCells.splitFrom] at hclose
  rw [bind_of_ok (modify_apply _ m)] at hclose
  have hall : m.openCells.entries.dropWhile (fun e => decide (e.1 < 0)) =
      m.openCells.entries := by
    cases m.openCells.entries <;> simp
  have hnone : m.openCells.entries.takeWhile (fun e => decide (e.1 < 0)) = [] := by
    cases m.openCells.entries <;> simp
  rw [hall, hnone] at hclose
  obtain ⟨hsame, hothers, hclosed⟩ := closing_closes hclose
  exact ⟨by rw [hsame], hothers, hclosed⟩

end Lox.Machine
