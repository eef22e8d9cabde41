import Lox.Proofs.Machine.Effects

/-!
# The extent of a call

A call of a closure puts a frame on top of those that wait, and it lasts until there are as many
frames as before. In between, any number of instructions are executed and any number of calls made.

Typed code takes no value off the stack that lies below the frame of its own call. So during the
whole extent of a call, the slots below the callee can change in one way only: an instruction
assigns a captured variable through its open cell. The assignments of an extent are therefore kept
in a log.

## Main definitions

* `Machine.assigns` — what the next instruction assigns through an open cell.
* `stored` — a stack after some assignments.
* `Extent` — the instructions from some point to the end of a call, with their assignments.

## Main results

* `Ready.runsOn` — what one instruction does to the frames and the stack.
* `Extent.returns` — what the extent of a call does to them.
-/

namespace Lox.Machine

variable {m m' mid : Machine} {fr base : Frame} {outer above : List Frame} {op : OpCode}
  {operand : Nat} {stack stack' : Array Value} {writes more : List (Nat × Value)} {slot : Nat}
  {v : Value}

/-! ### Assignments through open cells -/

/-- What the next instruction assigns through an open cell: the slot of the cell and the value on
top of the stack. -/
def assigns (m : Machine) : List (Nat × Value) :=
  match fetch m with
  | .ok (.setUpvalue, index) mid =>
    match capturedCell index mid with
    | .ok cell _ =>
      match mid.heap.cell cell, mid.stack.back? with
      | .ok (.opened slot), some v => [(slot, v)]
      | _, _ => []
    | .error _ _ => []
  | _ => []

/-- A stack after some assignments, in order. -/
def stored (stack : Array Value) (writes : List (Nat × Value)) : Array Value :=
  writes.foldl (fun stack write => stack.setIfInBounds write.1 write.2) stack

/-- Two stacks have the same values below a slot. -/
def Agree (slot : Nat) (stack stack' : Array Value) : Prop := ∀ j < slot, stack'[j]? = stack[j]?

theorem Agree.refl (slot : Nat) (stack : Array Value) : Agree slot stack stack := fun _ _ => rfl

theorem Agree.trans {last : Array Value} (first : Agree slot stack stack')
    (second : Agree slot stack' last) : Agree slot stack last :=
  fun j hj => (second j hj).trans (first j hj)

theorem Agree.mono {lower : Nat} (agree : Agree slot stack stack') (le : lower ≤ slot) :
    Agree lower stack stack' := fun j hj => agree j (Nat.lt_of_lt_of_le hj le)

/-- Stacks that agree do so after the same assignments. -/
theorem Agree.stored (agree : Agree slot stack stack') (writes : List (Nat × Value)) :
    Agree slot (stored stack writes) (stored stack' writes) := by
  induction writes generalizing stack stack' with
  | nil => exact agree
  | cons write writes ih =>
      refine ih fun j hj => ?_
      rw [Array.getElem?_setIfInBounds, Array.getElem?_setIfInBounds, agree j hj]
      split
      · rename_i heq
        subst heq
        have hiff : write.1 < stack'.size ↔ write.1 < stack.size := by
          rw [← not_iff_not, Nat.not_lt, Nat.not_lt, ← Array.getElem?_eq_none_iff,
            ← Array.getElem?_eq_none_iff, agree _ hj]
        simp only [hiff]
      · rfl

/-- Assignments one after another. -/
theorem stored_append (stack : Array Value) (writes more : List (Nat × Value)) :
    stored stack (writes ++ more) = stored (stored stack writes) more :=
  List.foldl_append

/-- Assignments do not change the height. -/
@[simp]
theorem size_stored (stack : Array Value) (writes : List (Nat × Value)) :
    (stored stack writes).size = stack.size := by
  induction writes generalizing stack with
  | nil => rfl
  | cons write writes ih => exact (ih _).trans (by simp)

/-- A slot that is not assigned keeps its value. -/
theorem stored_of_not_mem {j : Nat} (free : ∀ v, (j, v) ∉ writes) :
    (stored stack writes)[j]? = stack[j]? := by
  induction writes generalizing stack with
  | nil => rfl
  | cons write writes ih =>
      have hne : write.1 ≠ j := fun heq => free write.2 (by simp [← heq])
      refine (ih fun v hv => free v (List.mem_cons_of_mem _ hv)).trans ?_
      rw [Array.getElem?_setIfInBounds, if_neg hne]

/-- Only setting a captured variable assigns through an open cell. -/
theorem assigns_of_ne (hfetch : fetch m = .ok (op, operand) mid) (other : op ≠ .setUpvalue) :
    m.assigns = [] := by
  unfold assigns
  rw [hfetch]
  split
  · rename_i heq
    cases heq
    exact absurd rfl other
  · rfl

/-! ### Instructions -/

/-- A machine that is ready reads an instruction of the listing of its innermost call. -/
theorem Ready.instruction (ready : m.Ready) : ∃ C P, ∃ pre : Listing, ∃ l post op operand,
    m.Poised C [] P ∧ C.listing = pre ++ l :: post ∧ C.frame.ip = pre.size ∧
    OpCode.Form op operand l.bytes ∧ op.depth operand ≤ P.length - 1 ∧
    fetch m = .ok (op, operand)
      { m with frames := { C.frame with ip := C.frame.ip + (1 + op.width) } :: C.outer } := by
  obtain ⟨C, P, poised, -, pre, post, hsplit, hip, henters⟩ := ready
  rcases post with _ | ⟨⟨profile, bytes⟩, post⟩
  · exact henters.elim
  have fits := poised.runs.listed pre _ post hsplit
  have reads : C.function.chunk.Reads C.frame.ip bytes := by
    rw [hip]
    exact Listing.reads (poised.runs.code.trans (by rw [hsplit]))
  have poised := poised.weaken henters
  obtain ⟨op, operand, hform, hdepth, -⟩ := fits.grounds
  obtain ⟨mid, hfetch, hposed, -⟩ := poised.fetch hform reads
  have hmid : mid = { m with frames := { C.frame with ip := C.frame.ip + (1 + op.width) } ::
      C.outer } := by
    rw [((fetch_advances m).moves _ _ hfetch).rest, hposed.frames]
    rfl
  exact ⟨C, _, pre, _, post, op, operand, poised, hsplit, hip, hform, hdepth, hmid ▸ hfetch⟩

/-- What an instruction looks at lies above the slot of the callee. -/
theorem Ready.fetched (ready : m.Ready) : ∃ fr outer op operand,
    m.frames = fr :: outer ∧
    fetch m = .ok (op, operand)
      { m with frames := { fr with ip := fr.ip + (1 + op.width) } :: outer } ∧
    fr.slots + op.depth operand ≤ m.stack.size ∧
    (0 < op.depth operand → fr.slots + op.depth operand < m.stack.size) := by
  obtain ⟨C, P, -, -, -, op, operand, poised, -, -, -, hdepth, hfetch⟩ := ready.instruction
  have hheight := poised.height
  rw [poised.slots] at hheight
  refine ⟨C.frame, C.outer, op, operand, poised.frames, hfetch, ?_, fun hpos => ?_⟩
  · omega
  · omega

/-! #### Answers -/

/-- A question that is answered changes nothing. -/
theorem ask_eq_ok {α : Type} {question : Machine → Except Fault α} {a : α}
    (run : ask question m = .ok a m') : m' = m ∧ question m = .ok a := by
  rcases ask_cases question m with ⟨b, hb, hask⟩ | ⟨f, hask⟩ <;> cases run.symm.trans hask
  exact ⟨rfl, hb⟩

/-- Raising an error never answers. -/
theorem raise_ne_ok {α : Type} {cause : Cause} {a : α} :
    (raise cause : Action α) m ≠ .ok a m' := by
  intro hrun
  obtain ⟨i, last, hraise⟩ := raise_eq cause m
  cases hrun.symm.trans (hraise α)

/-- The value under some others. -/
theorem peek_found {depth : Nat} (run : peek depth m = .ok v m') :
    m' = m ∧ depth < m.stack.size ∧ m.stack[m.stack.size - 1 - depth]? = some v := by
  obtain rfl := (peek_looks depth).eq_of_ok run
  rw [peek, bind_of_ok (get_apply m')] at run
  split at run
  · rename_i hlt
    cases hv : m'.stack[m'.stack.size - 1 - depth]? with
    | none =>
        rw [hv] at run
        cases run
    | some w =>
        rw [hv] at run
        cases run
        exact ⟨rfl, hlt, rfl⟩
  · cases run

theorem setSlot_eq_ok (run : setSlot slot v m = .ok () m') :
    m' = { m with stack := m.stack.setIfInBounds slot v } := by
  rw [setSlot, bind_of_ok (get_apply m)] at run
  split at run
  · cases run
    rfl
  · cases run

/-- An operation of the heap changes nothing else. -/
theorem onHeap_eq_ok {α : Type} {operation : HeapM α} {a : α}
    (run : onHeap operation m = .ok a m') :
    ∃ heap, m' = { m with heap } := by
  unfold onHeap at run
  split at run
  · cases run
    exact ⟨_, rfl⟩
  · cases run

/-- What a push leaves behind. -/
theorem push_eq_ok (run : push v m = .ok () m') : m' = { m with stack := m.stack.push v } := by
  unfold push at run
  split at run
  · exact absurd run raise_ne_ok
  · cases run
    rfl

/-- Assigning a local sets its slot. -/
theorem setLocal_eq_ok (frames : m.frames = fr :: outer)
    (run : execute .setLocal operand m = .ok () m') :
    ∃ v, m' = { m with stack := m.stack.setIfInBounds (fr.slots + operand) v } := by
  obtain ⟨fr', mid, hframe, hrest⟩ := bind_eq_ok_iff.mp run
  obtain rfl := frame_looks.eq_of_ok hframe
  rw [frame, bind_of_ok (get_apply mid), frames] at hframe
  cases hframe
  obtain ⟨v, last, hpeek, hset⟩ := bind_eq_ok_iff.mp hrest
  obtain rfl := (peek_looks 0).eq_of_ok hpeek
  exact ⟨v, setSlot_eq_ok hset⟩

/-- Assigning a captured variable sets a slot through an open cell, or it sets no slot. -/
theorem setUpvalue_eq_ok (hfetch : fetch m = .ok (.setUpvalue, operand) mid)
    (run : execute .setUpvalue operand mid = .ok () m') :
    m'.frames = mid.frames ∧ m'.stack = stored mid.stack m.assigns := by
  obtain ⟨cell, last, hcell, hrest⟩ := bind_eq_ok_iff.mp run
  obtain rfl := (capturedCell_looks operand).eq_of_ok hcell
  obtain ⟨v, last', hpeek, hwrite⟩ := bind_eq_ok_iff.mp hrest
  obtain ⟨rfl, htop⟩ := peek_eq_ok hpeek
  obtain ⟨state, last'', hask, hset⟩ := bind_eq_ok_iff.mp hwrite
  obtain ⟨rfl, hstate⟩ := ask_eq_ok hask
  unfold assigns
  rw [hfetch]
  simp only [hcell, hstate, htop]
  cases state with
  | opened slot =>
      rw [setSlot_eq_ok hset]
      exact ⟨rfl, rfl⟩
  | closed w =>
      obtain ⟨heap, rfl⟩ := onHeap_eq_ok hset
      exact ⟨rfl, rfl⟩

/-- A call of a closure that succeeds puts its frame on top of the others. -/
theorem call_eq_ok {h : Handle} {count : Nat} (run : call h count m = .ok () m') :
    ∃ c f, m.heap.object? h = some (.closure c) ∧
      m.heap.object? c.function = some (.function f) ∧ f.arity = count ∧
      m' = { m with frames := { closure := h, function := c.function,
                                slots := m.stack.size - count - 1 } :: m.frames } := by
  obtain ⟨c, last, hc, hrest⟩ := bind_eq_ok_iff.mp run
  obtain ⟨rfl, hc⟩ := ask_eq_ok hc
  obtain ⟨f, last', hf, hend⟩ := bind_eq_ok_iff.mp hrest
  obtain ⟨rfl, hf⟩ := ask_eq_ok hf
  rw [bind_of_ok (get_apply _)] at hend
  split at hend
  · exact absurd hend raise_ne_ok
  rename_i harity
  split at hend
  · exact absurd hend raise_ne_ok
  split at hend
  · cases hend
  · cases hend
    exact ⟨c, f, Heap.closure_eq_ok_iff.mp hc, Heap.function_eq_ok_iff.mp hf,
      (Decidable.not_not.mp harity).symm, rfl⟩

/-- A call that succeeds calls a closure, whose frame is put on top of the others, or a host
function, whose result takes the place of the callee and the arguments. -/
theorem callValue_eq_ok {count : Nat} (run : callValue count m = .ok () m') :
    count < m.stack.size ∧ ∃ h, m.stack[m.stack.size - 1 - count]? = some (.object h) ∧
      ((∃ c f, m.heap.object? h = some (.closure c) ∧
          m.heap.object? c.function = some (.function f) ∧ f.arity = count ∧
          m' = { m with frames := { closure := h, function := c.function,
                                    slots := m.stack.size - count - 1 } :: m.frames }) ∨
        ∃ native, m.heap.object? h = some (.native native) ∧
          m' = { m with
            hostCalls := m.hostCalls + 1
            stack := (m.stack.shrink (m.stack.size - count - 1)).push
              (native.run (m.clock m.hostCalls)
                (m.stack.extract (m.stack.size - count) m.stack.size)) }) := by
  obtain ⟨v, mid, hpeek, hrest⟩ := bind_eq_ok_iff.mp run
  obtain ⟨rfl, hlt, hv⟩ := peek_found hpeek
  cases v with
  | nil | bool | number => exact absurd hrest raise_ne_ok
  | object h =>
      obtain ⟨kind, last, hask, hcall⟩ := bind_eq_ok_iff.mp hrest
      obtain ⟨rfl, hkind⟩ := ask_eq_ok hask
      refine ⟨hlt, h, hv, ?_⟩
      cases kind with
      | string | function | cell => exact absurd hcall raise_ne_ok
      | closure => exact .inl (call_eq_ok hcall)
      | native =>
          obtain ⟨native, last', hn, hend⟩ := bind_eq_ok_iff.mp hcall
          obtain ⟨rfl, hn⟩ := ask_eq_ok hn
          rw [callNative, bind_of_ok (get_apply _), bind_of_ok (modify_apply _ _), truncate,
            bind_of_ok (modify_apply _ _)] at hend
          refine .inr ⟨native, Heap.native_eq_ok_iff.mp hn, ?_⟩
          rw [push_eq_ok hend, Nat.sub_right_comm]

/-- Closing cells changes nothing but the heap and the open cells. -/
theorem closeFrom_eq_ok (run : closeFrom slot m = .ok () m') :
    ∃ heap kept, m' = { m with heap, openCells := kept } := by
  rw [closeFrom, bind_of_ok (get_apply m)] at run
  simp only [OpenCells.splitFrom] at run
  rw [bind_of_ok (modify_apply _ m)] at run
  exact ⟨_, _, (closing_closes run).1⟩

/-- The end of a call that is not the last: its frame goes, and its result takes the place of the
callee and of all that lies above. -/
theorem giveBack_eq_ok (frames : m.frames = fr :: outer)
    (run : giveBack m = .ok .running m') :
    m'.frames = outer ∧
      m'.stack = (m.stack.pop.shrink fr.slots).push (m.stack.back?.getD .nil) := by
  rw [giveBack, bind_of_ok (pop_apply m), bind_of_ok (get_apply _)] at run
  simp only [frames] at run
  rw [bind_of_ok (modify_apply _ _)] at run
  obtain ⟨⟨⟩, last, hclose, hrest⟩ := bind_eq_ok_iff.mp run
  obtain ⟨heap, kept, rfl⟩ := closeFrom_eq_ok hclose
  rw [truncate, bind_of_ok (modify_apply _ _)] at hrest
  split at hrest
  · cases hrest
  · obtain ⟨⟨⟩, last', hpush, hend⟩ := bind_eq_ok_iff.mp hrest
    cases hend
    rw [push_eq_ok hpush]
    exact ⟨rfl, rfl⟩

/-! #### One instruction -/

/-- What one instruction does to the frames and to the stack, if its script runs on. -/
inductive RunsOn (m : Machine) (fr : Frame) (outer : List Frame) (m' : Machine) : Prop
  /-- The call goes on. -/
  | inside {ip : Nat} (frames : m'.frames = { fr with ip } :: outer)
      (stack : Agree fr.slots (stored m.stack m.assigns) m'.stack)
  /-- A call of a closure begins. -/
  | enters {callee : Frame} {ip : Nat} (frames : m'.frames = callee :: { fr with ip } :: outer)
      (above : fr.slots ≤ callee.slots) (stack : m'.stack = m.stack) (none : m.assigns = [])
  /-- The call ends. -/
  | returns {result : Value} {operand : Nat} {mid : Machine}
      (reads : fetch m = .ok (.giveBack, operand) mid) (frames : m'.frames = outer)
      (deep : fr.slots < m.stack.size) (top : m.stack.back? = some result)
      (stack : m'.stack = (m.stack.shrink fr.slots).push result) (none : m.assigns = [])

/-- A shorter stack is the same where it is left. -/
theorem getElem?_shrink {n j : Nat} (lt : j < n) : (stack.shrink n)[j]? = stack[j]? := by
  rw [← Array.getElem?_toList, Array.toList_shrink, List.getElem?_take_of_lt lt,
    Array.getElem?_toList]

/-- What lies under the result of a call. -/
theorem shrink_pop {n : Nat} (lt : n < stack.size) : stack.pop.shrink n = stack.shrink n := by
  refine Array.toList_inj.mp ?_
  rw [Array.toList_shrink, Array.toList_shrink, Array.toList_pop, List.dropLast_eq_take,
    List.take_take, Nat.min_eq_left (by simp; omega)]

/-- The values below a slot stay where a value is put at the slot or above it. -/
theorem Agree.replaced {n : Nat} (le : slot ≤ n) (lt : n < stack.size) (v : Value) :
    Agree slot stack ((stack.shrink n).push v) := fun j hj => by
  rw [Array.getElem?_push, if_neg (by rw [Array.size_shrink]; omega),
    getElem?_shrink (Nat.lt_of_lt_of_le hj le)]

/-- An instruction of typed code does not reach below the frame of its call, but for an assignment
through an open cell. -/
theorem Ready.runsOn (ready : m.Ready) (frames : m.frames = fr :: outer)
    (run : Machine.step m = .ok .running m') : RunsOn m fr outer m' := by
  obtain ⟨fr', outer', op, operand, hframes, hfetch, hdepth, hdeep⟩ := ready.fetched
  obtain ⟨rfl, rfl⟩ := List.cons_eq_cons.mp (frames.symm.trans hframes)
  rw [Machine.step, bind_of_ok hfetch] at run
  simp only at run
  by_cases hback : op = .giveBack
  · subst hback
    rw [if_pos rfl] at run
    obtain ⟨hframes', hstack⟩ := giveBack_eq_ok rfl run
    have hlt := hdeep Nat.one_pos
    obtain ⟨result, htop⟩ : ∃ result, m.stack.back? = some result := by
      rw [Array.back?_eq_getElem?]
      exact ⟨_, Array.getElem?_eq_getElem (by omega)⟩
    have hbelow : fr.slots < m.stack.size := Nat.lt_of_succ_lt hlt
    refine .returns hfetch hframes' hbelow htop ?_ (assigns_of_ne hfetch (by decide))
    rw [hstack, shrink_pop hbelow, htop]
    rfl
  rw [if_neg hback] at run
  obtain ⟨⟨⟩, last, hexecute, hend⟩ := bind_eq_ok_iff.mp run
  cases hend
  by_cases hset : op = .setUpvalue
  · subst hset
    obtain ⟨hframes', hstack⟩ := setUpvalue_eq_ok hfetch hexecute
    refine .inside hframes' ?_
    rw [hstack]
    exact .refl _ _
  have hnone := assigns_of_ne hfetch hset
  have hinside : ∀ {ip}, m'.frames = { fr with ip } :: outer → Agree fr.slots m.stack m'.stack →
      RunsOn m fr outer m' := fun hframes' hagree => by
    refine .inside hframes' ?_
    rw [hnone]
    exact hagree
  by_cases hlocal : op = .setLocal
  · subst hlocal
    obtain ⟨v, rfl⟩ := setLocal_eq_ok rfl hexecute
    refine hinside rfl fun j hj => ?_
    rw [Array.getElem?_setIfInBounds, if_neg (by simp only; omega)]
  by_cases hcall : op = .call
  · subst hcall
    obtain ⟨hcount, h, -, ⟨c, f, -, -, -, rfl⟩ | ⟨native, -, rfl⟩⟩ := callValue_eq_ok hexecute
    · have hlt := hdeep (Nat.succ_pos _)
      refine .enters rfl ?_ rfl hnone
      simp only [OpCode.depth] at hlt ⊢
      omega
    · have hlt := hdeep (Nat.succ_pos _)
      simp only [OpCode.depth] at hlt
      exact hinside rfl (.replaced (by simp only; omega) (by simp only; omega) _)
  · obtain ⟨taken, given, hle, heffect⟩ := execute_effect operand ⟨hlocal, hset, hcall⟩
    obtain ⟨-, hbelow, ip, hframes'⟩ := heffect _ _ _ (by simp only; omega) hexecute
    exact hinside hframes' fun j hj => hbelow j (by simp only; omega)

/-! ### Extents -/

/-- The instructions that are executed until there are no more frames than a given count, with all
that they assign through open cells. -/
inductive Extent (depth : Nat) : Machine → List (Nat × Value) → Machine → Prop
  | done {m : Machine} (level : m.frames.length = depth) : Extent depth m [] m
  | step {m mid m' : Machine} {writes : List (Nat × Value)} (deep : depth < m.frames.length)
      (run : Machine.step m = .ok .running mid) (rest : Extent depth mid writes m') :
      Extent depth m (m.assigns ++ writes) m'

/-- Executes the instructions of an extent, for at most a given count of instructions. -/
def follow (depth : Nat) : (budget : Nat) → Machine → Option (List (Nat × Value) × Machine)
  | 0, _ => none
  | budget + 1, m =>
    if m.frames.length = depth then some ([], m)
    else if depth < m.frames.length then
      match Machine.step m with
      | .ok .running mid =>
        (follow depth budget mid).map fun (writes, m') => (m.assigns ++ writes, m')
      | _ => none
    else none

/-- What is followed to its end is an extent. -/
theorem extent_of_follow {depth budget : Nat}
    (followed : follow depth budget m = some (writes, m')) :
    Extent depth m writes m' := by
  induction budget generalizing m writes with
  | zero => cases followed
  | succ budget ih =>
      rw [follow] at followed
      split at followed
      · rename_i hlevel
        cases followed
        exact .done hlevel
      split at followed
      · rename_i hdeep
        split at followed
        · rename_i mid hrun
          obtain ⟨⟨rest, last⟩, hrest, heq⟩ := Option.map_eq_some_iff.mp followed
          cases heq
          exact .step hdeep hrun (ih hrest)
        · cases followed
      · cases followed

/-- How the call of a frame ends: an instruction ends it, and the value on top of the stack takes
the place of the callee and of all that lies above it. -/
structure Returns (m : Machine) (base : Frame) (outer : List Frame) (writes : List (Nat × Value))
    (result : Value) (m' : Machine) : Prop where
  last : ∃ (last mid : Machine) (ip operand : Nat), last.frames = { base with ip } :: outer ∧
    fetch last = .ok (.giveBack, operand) mid ∧ last.stack.back? = some result ∧
    Machine.step last = .ok .running m'
  frames : m'.frames = outer
  height : m'.stack.size = base.slots + 1
  top : m'.stack[base.slots]? = some result
  below : Agree base.slots (stored m.stack writes) m'.stack

/-- An instruction before the end of a call. -/
theorem Returns.earlier {ip : Nat} {result : Value}
    (returns : Returns mid { base with ip } outer writes result m')
    (stack : Agree base.slots (stored m.stack m.assigns) mid.stack) :
    Returns m base outer (m.assigns ++ writes) result m' where
  last := returns.last
  frames := returns.frames
  height := returns.height
  top := returns.top
  below := by
    rw [stored_append]
    exact (stack.stored writes).trans returns.below

/-- What the rest of a call does: some calls inside of it come to their ends, and then its own
does. -/
theorem Extent.returns {depth : Nat} (above : List Frame) (extent : Extent depth m writes m')
    (ready : m.Ready) (level : outer.length = depth) (frames : m.frames = above ++ base :: outer)
    (inner : ∀ fr ∈ above, base.slots ≤ fr.slots) :
    ∃ result, Returns m base outer writes result m' := by
  induction extent generalizing above base with
  | done hdone =>
      rw [frames, List.length_append, List.length_cons] at hdone
      omega
  | @step m mid m' writes deep run rest ih =>
      have hready : mid.Ready := by
        have hends := ready.step
        rw [run] at hends
        cases hends with
        | ok hready => exact hready
      have hsame : m.assigns = [] → ∀ stack : Array Value, Agree base.slots m.stack stack →
          Agree base.slots (stored m.stack m.assigns) stack := fun hnone stack hagree => by
        rw [hnone]
        exact hagree
      cases above with
      | nil =>
          cases ready.runsOn frames run with
          | inside hframes hstack =>
              obtain ⟨result, hreturns⟩ := ih [] hready hframes (by simp)
              exact ⟨result, hreturns.earlier hstack⟩
          | @enters callee ip hframes habove hstack hnone =>
              obtain ⟨result, hreturns⟩ := ih [callee] hready hframes (by simpa using habove)
              refine ⟨result, hreturns.earlier (hsame hnone _ ?_)⟩
              rw [hstack]
              exact .refl _ _
          | @returns result operand last hreads hframes hdeep htop hstack hnone =>
              cases rest with
              | step hdeep' =>
                  rw [hframes, level] at hdeep'
                  exact absurd hdeep' (Nat.lt_irrefl _)
              | done =>
                  have hheight : (m.stack.shrink base.slots).size = base.slots := by
                    rw [Array.size_shrink, Nat.min_eq_left hdeep.le]
                  refine ⟨result, ⟨m, last, base.ip, operand, frames, hreads, htop, run⟩, hframes,
                    ?_, ?_, ?_⟩
                  · rw [hstack, Array.size_push, hheight]
                  · rw [hstack, Array.getElem?_push, if_pos hheight.symm]
                  · rw [hnone, hstack]
                    exact .replaced (Nat.le_refl _) hdeep result
      | cons fr above =>
          have hfr := inner fr (List.mem_cons_self ..)
          have hothers := fun fr hfr => inner fr (List.mem_cons_of_mem _ hfr)
          cases ready.runsOn frames run with
          | @inside ip hframes hstack =>
              obtain ⟨result, hreturns⟩ := ih ({ fr with ip } :: above) hready hframes
                (List.forall_mem_cons.mpr ⟨hfr, hothers⟩)
              exact ⟨result, hreturns.earlier (hstack.mono hfr)⟩
          | @enters callee ip hframes habove hstack hnone =>
              obtain ⟨result, hreturns⟩ := ih (callee :: { fr with ip } :: above)
                hready hframes (List.forall_mem_cons.mpr ⟨hfr.trans habove,
                  List.forall_mem_cons.mpr ⟨hfr, hothers⟩⟩)
              refine ⟨result, hreturns.earlier (hsame hnone _ ?_)⟩
              rw [hstack]
              exact .refl _ _
          | @returns inside _ _ _ hframes hdeep _ hstack hnone =>
              obtain ⟨result, hreturns⟩ := ih above hready hframes hothers
              refine ⟨result, hreturns.earlier (hsame hnone _ ?_)⟩
              rw [hstack]
              exact .replaced hfr hdeep inside

/-- The stack after a call: the one before it with what the call has assigned through open cells,
and with the result in the place of the callee and of all that lies above. -/
theorem Returns.stack_eq {result : Value} (returns : Returns m base outer writes result m')
    (deep : base.slots ≤ m.stack.size) :
    m'.stack = ((stored m.stack writes).shrink base.slots).push result := by
  have hheight : ((stored m.stack writes).shrink base.slots).size = base.slots := by
    rw [Array.size_shrink, size_stored, Nat.min_eq_left deep]
  refine Array.ext_getElem? fun j => ?_
  rw [Array.getElem?_push, hheight]
  split
  · rename_i heq
    rw [heq, returns.top]
  · by_cases hj : j < base.slots
    · rw [returns.below j hj, getElem?_shrink hj]
    · rw [Array.getElem?_eq_none (by rw [returns.height]; omega),
        Array.getElem?_eq_none (by rw [hheight]; omega)]

/-! ### Calls -/

/-- Who is called, and what is given and got back. The callee lies in a slot under a count of
arguments; `first` is the machine after the instruction that calls, and `m'` the one that goes on
behind the call. -/
inductive Invokes (m first m' : Machine) (slot count : Nat) (result : Value) : Prop
  /-- A closure starts with the slots from the callee on for its own, and ends with the result on
  top of the stack. -/
  | closure {h : Handle} {c : Closure} {f : Function} {last mid : Machine} {ip operand : Nat}
      (callee : m.stack[slot]? = some (.object h))
      (object : m.heap.object? h = some (.closure c))
      (function : m.heap.object? c.function = some (.function f)) (arity : f.arity = count)
      (starts : first.frames =
        { closure := h, function := c.function, ip := 0, slots := slot } :: m'.frames)
      (given : first.stack = m.stack)
      (ends : last.frames =
        { closure := h, function := c.function, ip, slots := slot } :: m'.frames)
      (reads : fetch last = .ok (.giveBack, operand) mid)
      (top : last.stack.back? = some result) (goesOn : Machine.step last = .ok .running m')
  /-- A host function is given the arguments. -/
  | native {h : Handle} {native : Native} (callee : m.stack[slot]? = some (.object h))
      (object : m.heap.object? h = some (.native native)) (atOnce : m' = first)
      (result : result = native.run (m.clock m.hostCalls)
        (m.stack.extract (slot + 1) m.stack.size))

/-- What a call that has come to its end has done. -/
structure Respects (m first m' : Machine) (count : Nat) (writes : List (Nat × Value)) : Prop where
  frames : ∃ fr outer, m.frames = fr :: outer ∧ m'.frames = { fr with ip := fr.ip + 2 } :: outer
  stack : ∃ slot result, slot + count + 1 = m.stack.size ∧
    m'.stack = ((stored m.stack writes).shrink slot).push result ∧
    (∀ j < slot, (∀ v, (j, v) ∉ writes) → m'.stack[j]? = m.stack[j]?) ∧
    Invokes m first m' slot count result

/-- A call in typed code. -/
theorem Ready.respects {first : Machine} {count : Nat} (ready : m.Ready)
    (reads : fetch m = .ok (.call, count) mid) (run : Machine.step m = .ok .running first)
    (extent : Extent m.frames.length first writes m') : Respects m first m' count writes := by
  obtain ⟨fr, outer, op, operand, hframes, hfetch, -⟩ := ready.fetched
  cases reads.symm.trans hfetch
  have hready : first.Ready := by
    have hends := ready.step
    rw [run] at hends
    cases hends with
    | ok hready => exact hready
  rw [Machine.step, bind_of_ok reads] at run
  simp only at run
  rw [if_neg (by decide)] at run
  obtain ⟨⟨⟩, last, hexecute, hend⟩ := bind_eq_ok_iff.mp run
  cases hend
  obtain ⟨hlt, h, hcallee, hcase⟩ := callValue_eq_ok hexecute
  simp only at hlt hcallee
  rw [Nat.sub_right_comm] at hcallee
  have hbelow : ∀ {slot result}, slot ≤ m.stack.size →
      m'.stack = ((stored m.stack writes).shrink slot).push result →
      ∀ j < slot, (∀ v, (j, v) ∉ writes) → m'.stack[j]? = m.stack[j]? := by
    intro slot result hle hstack j hj hfree
    rw [hstack, Array.getElem?_push, if_neg (by rw [Array.size_shrink, size_stored]; omega),
      getElem?_shrink hj, stored_of_not_mem hfree]
  rcases hcase with ⟨c, f, hc, hf, harity, rfl⟩ | ⟨native, hn, rfl⟩
  · have hlevel : ({ fr with ip := fr.ip + (1 + OpCode.width .call) } :: outer).length =
        m.frames.length := by rw [hframes, List.length_cons, List.length_cons]
    obtain ⟨result, hreturns⟩ := extent.returns [] hready hlevel rfl (by simp)
    have hstack := hreturns.stack_eq (by simp only; omega)
    obtain ⟨last, mid, ip, operand, hends, hreads, htop, hrun⟩ := hreturns.last
    have hframes' := hreturns.frames
    refine ⟨⟨fr, outer, hframes, hframes'⟩, _, result, ?_, hstack,
      hbelow (by simp only; omega) hstack, ?_⟩
    · simp only
      omega
    · exact .closure hcallee hc hf harity (by rw [hframes']) rfl (by rw [hframes', hends]) hreads
        htop hrun
  · cases extent with
    | step deep =>
        rw [hframes] at deep
        exact absurd deep (Nat.lt_irrefl _)
    | done =>
        refine ⟨⟨fr, outer, hframes, rfl⟩, m.stack.size - count - 1, _, ?_, rfl,
          hbelow (by omega) rfl, ?_⟩
        · omega
        · refine .native hcallee hn rfl ?_
          rw [show m.stack.size - count - 1 + 1 = m.stack.size - count by omega]

end Lox.Machine
