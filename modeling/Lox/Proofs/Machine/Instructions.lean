import Lox.Proofs.Machine.Objects

/-!
# Instructions of typed code

A machine that is ready finds a typed instruction in its code. It reads the instruction, executes
it and is ready again, unless the program is to blame for a runtime error or a collection
overflows.

## Main results

* `Poised.fetch` — reading an instruction.
* `call_spec`, `Poised.callValue` — calls.
-/

namespace Lox

/-- The operand of an operation belongs to its bytes. -/
theorem OpCode.Form.width_lt {op : OpCode} {operand : Nat} {bs : List UInt8}
    (form : OpCode.Form op operand bs) : op.width < bs.length := by
  cases form with
  | plain hwidth => simp [hwidth, OpCode.plain]
  | short hwidth => simp [hwidth, OpCode.short]
  | long hwidth => simp [hwidth, OpCode.long]
  | closure captures =>
      simp only [OpCode.short, List.length_append, List.length_cons, List.length_nil]
      exact Nat.lt_of_lt_of_le (by decide) (Nat.le_add_right _ _)

/-- Slots for which no cell may be open are not shared. -/
theorem Profile.shares_of_replicate {slot n : Nat} {P : Profile}
    (shares : Profile.shares slot (List.replicate n false ++ P) = true) : P.shares slot = true := by
  induction n with
  | zero => exact shares
  | succ n ih => exact ih (Profile.shares_of_shares_false shares)

namespace Heap

variable {heap : Heap} {entries : List (Nat × Handle)} {building : Option Handle}
  {roots : List Handle} {g h : Handle} {c : Closure} {f : Function}

/-- Any closure may be taken for one that is being built. -/
theorem Secure.build (secure : heap.Secure entries none roots) (h : Handle) :
    heap.Secure entries (some h) roots := by
  refine { secure with fine := fun g o hreach ho => ?_ }
  cases secure.fine g o hreach ho with
  | string text => exact .string text
  | function hholds htyped hlined => exact .function hholds htyped hlined
  | native hconforms => exact .native hconforms
  | closure hfunction hcells hcount => exact .closure hfunction hcells fun _ => hcount nofun
  | opened hmem => exact .opened hmem
  | closed v => exact .closed v

/-- A closure that is reached can be called: its code may be entered with the profile of the
callee and the arguments. -/
theorem Secure.runs (secure : heap.Secure entries building roots)
    (reaches : heap.Reaches roots h) (hc : heap.object? h = some (.closure c))
    (hf : heap.object? c.function = some (.function f)) (slots : Nat) :
    ∃ constants L, heap.Runs { closure := h, function := c.function, slots } f constants L ∧
      L.At 0 (List.replicate (f.arity + 1) false) := by
  have hreach : heap.Reaches roots c.function := reaches.child hc (by simp [Object.children])
  obtain ⟨name, constants, hnamed, hall, hlisted, -, htyped⟩ := secure.function hreach hf
  obtain ⟨L, own, hends, hcode, harity, henters, hL⟩ := hlisted.listing
  refine ⟨constants, L, ⟨⟨c, hc, rfl⟩, hf, ⟨name, hnamed⟩, hall, htyped, ?_, hcode.symm, hL, ?_⟩,
    [], L, rfl, rfl, henters.weaken ?_⟩
  · have := hlisted.lines
    simpa [Function.template] using this
  · obtain ⟨body, P, hL', hclosed, hlevel⟩ := hends
    refine ⟨body, P, hL', hclosed, fun hnone => hlevel ?_⟩
    rw [hnone] at hnamed
    cases name with
    | none => rfl
    | some text => exact hnamed.elim
  · have harity : own.length = f.arity + 1 := harity
    refine List.forall₂_iff_get.mpr ⟨by simp [harity], fun i hi hi' => ?_⟩
    simp

end Heap

namespace Machine

variable {m : Machine} {C : Call} {hands : List Value} {P Q : Profile} {v : Value} {g h : Handle}
  {o : Object} {i count : Nat} {bs : List UInt8} {op : OpCode} {operand : Nat} {b : Bool}

/-! ### Reading an instruction -/

/-- A machine is ready when its code goes on where it is. -/
theorem Poised.ready (poised : m.Poised C hands P) (whole : C.building = none)
    (next : C.listing.At C.frame.ip P) : m.Ready :=
  ⟨C, P, poised.drop, whole, next⟩

/-- An instruction is read from its bytes. -/
theorem Poised.fetch (poised : m.Poised C hands P) (form : OpCode.Form op operand bs)
    (reads : C.function.chunk.Reads C.frame.ip bs) :
    ∃ m', fetch m = .ok (op, operand) m' ∧ m'.Poised (C.after (1 + op.width)) hands P ∧
      m'.heap = m.heap ∧ m'.stack = m.stack ∧ m'.openCells = m.openCells := by
  have hop := reads.opAt? form
  have hoperand := reads.operandAt? form
  unfold Chunk.opAt? at hop
  obtain ⟨byte, hbyte, hbyte'⟩ := Option.bind_eq_some_iff.mp hop
  have hlt : C.frame.ip + op.width < C.function.chunk.code.size := by
    have := reads op.width form.width_lt
    rw [List.getElem?_eq_getElem form.width_lt] at this
    exact (Array.getElem?_eq_some_iff.mp this).1
  obtain ⟨m', hset, hposed⟩ := poised.setIp
    (show C.frame.ip + 1 + op.width - 1 < C.function.chunk.code.size by omega)
  rw [Nat.add_assoc] at hset hposed
  refine ⟨m', ?_, hposed⟩
  rw [Machine.fetch, bind_of_ok poised.frame, bind_of_ok poised.chunk, hbyte,
    bind_of_ok (demand_some byte m)]
  simp only [hbyte', hoperand]
  rw [bind_of_ok (demand_some operand m), Nat.add_assoc, bind_of_ok hset]
  rfl

/-! ### Ways to go on -/

/-- Pushing a value in the hands and going on. -/
theorem Poised.pushReady (poised : m.Poised C hands P) (whole : C.building = none)
    (owns : ∀ h, v = .object h → v ∈ hands) (next : C.listing.At C.frame.ip (false :: P)) :
    Ends (fun _ m' => m'.Ready) (Machine.push v m) := by
  refine (poised.push whole owns).imp ?_
  rintro _ m' ⟨-, hpoised⟩
  exact hpoised.ready whole next

/-- Going on at an offset of the code. -/
theorem Poised.goReady (poised : m.Poised C hands P) (whole : C.building = none) {ip : Nat}
    (next : C.listing.At ip P) : Ends (fun _ m' => m'.Ready) (Machine.setIp ip m) := by
  have hlt := next.lt poised.runs.listed
  rw [Listing.size, ← poised.runs.code, Array.length_toList] at hlt
  obtain ⟨m', hrun, hpoised, -⟩ := poised.setIp (show ip - 1 < _ by omega)
  rw [hrun]
  exact .ok (hpoised.ready whole next)

/-! ### Globals -/

/-- A constant that names a global is taken into the hands. -/
theorem Poised.nameConstant (poised : m.Poised C hands P) {name : String}
    (found : C.constants[i]? = some (.text name)) :
    ∃ h, nameConstant i m = .ok h m ∧ m.heap.object? h = some (.string name) ∧
      m.Poised C (.object h :: hands) P := by
  obtain ⟨v, hv, hholds, -, hreach⟩ := poised.constant found
  cases hholds with
  | @text h _ hs =>
      refine ⟨h, ?_, hs, poised.reach fun g hg => ?_⟩
      · have hask : ask (fun m => m.heap.isString (.object h)) m = .ok true m := by
          refine ask_of_ok ?_
          simp [Heap.isString, Heap.kind_of_object? hs, Object.kind, bind, Except.bind, pure,
            Except.pure]
        rw [Machine.nameConstant, bind_of_ok hv]
        exact bind_of_ok hask
      · rcases List.mem_cons.mp hg with heq | hg
        · obtain rfl := Value.object.inj heq
          exact (hreach g rfl).mono fun f hf => mem_holding.mpr (.inr hf)
        · exact reaches_hands hg

/-- An undefined variable is reported with its name. -/
theorem Poised.undefined {α : Type} {ok : α → Machine → Prop} {name : String}
    (poised : m.Poised C hands P) (whole : C.building = none)
    (hs : m.heap.object? h = some (.string name)) :
    Ends ok ((do Machine.raise (Cause.undefinedVariable (← ask (·.heap.string h))) :
      Action α) m) := by
  rw [bind_of_ok (ask_of_ok (Heap.string_eq_ok_iff.mpr hs))]
  exact poised.raise whole (by simp [Cause.kind])

/-- Reading a global. -/
theorem Poised.getGlobal (poised : m.Poised C hands P) (whole : C.building = none) {name : String}
    (found : C.constants[i]? = some (.text name))
    (next : C.listing.At C.frame.ip (false :: P)) :
    Ends (fun _ m' => m'.Ready) (execute .getGlobal i m) := by
  obtain ⟨h, hname, hs, hpoised⟩ := poised.nameConstant found
  rw [execute, bind_of_ok hname]
  unfold readGlobal
  cases hglobal : m.globals[h]? with
  | none =>
      refine Ends.bind (show Ends (fun _ _ => False) _ from ?_) fun _ _ hfalse => hfalse.elim
      rw [bind_of_ok (get_apply m)]
      simp only [hglobal]
      exact hpoised.undefined whole hs
  | some v =>
      refine Ends.bind (show Ends (fun a m' => a = v ∧ m' = m) _ from ?_) ?_
      · rw [bind_of_ok (get_apply m)]
        simp only [hglobal]
        exact .ok ⟨rfl, rfl⟩
      · rintro _ _ ⟨rfl, rfl⟩
        exact (hpoised.global hglobal).pushReady whole (fun _ _ => List.mem_cons_self ..) next

/-- Defining a global. -/
theorem Poised.defineGlobal (poised : m.Poised C hands (false :: P)) (whole : C.building = none)
    {name : String} (found : C.constants[i]? = some (.text name))
    (next : C.listing.At C.frame.ip P) :
    Ends (fun _ m' => m'.Ready) (execute .defineGlobal i m) := by
  obtain ⟨h, hname, -, hnamed⟩ := poised.nameConstant found
  obtain ⟨v, hpeek, -, hpeeked⟩ := hnamed.peek 0 (by simp)
  have hset := hpeeked.setGlobal (g := h) (v := v) (by simp) (by simp)
  obtain ⟨w, hpop, -, hpopped⟩ := hset.pop
  rw [execute, bind_of_ok hname, bind_of_ok hpeek, Machine.setGlobal, bind_of_ok (modify_apply _ m),
    bind_of_ok hpop]
  exact .ok (hpopped.ready whole next)

/-- Assigning a global. -/
theorem Poised.assignGlobal (poised : m.Poised C hands (false :: P)) (whole : C.building = none)
    {name : String} (found : C.constants[i]? = some (.text name))
    (next : C.listing.At C.frame.ip (false :: P)) :
    Ends (fun _ m' => m'.Ready) (execute .setGlobal i m) := by
  obtain ⟨h, hname, hs, hnamed⟩ := poised.nameConstant found
  obtain ⟨v, hpeek, -, hpeeked⟩ := hnamed.peek 0 (by simp)
  rw [execute, bind_of_ok hname, Machine.assignGlobal, bind_of_ok (get_apply m)]
  split
  · rw [bind_of_ok hpeek, Machine.setGlobal, modify_apply]
    exact .ok ((hpeeked.setGlobal (by simp) (by simp)).ready whole next)
  · exact hnamed.undefined whole hs

/-! ### Locals and captured variables -/

/-- Reading a local. -/
theorem Poised.getLocal (poised : m.Poised C hands P) (whole : C.building = none)
    (lt : i < P.length) (next : C.listing.At C.frame.ip (false :: P)) :
    Ends (fun _ m' => m'.Ready) (execute .getLocal i m) := by
  have hlt : C.frame.slots + i < m.stack.size := by
    rw [poised.height, ← poised.slots]
    omega
  obtain ⟨v, hv, -, hpoised⟩ := poised.slotValue hlt
  rw [execute, bind_of_ok poised.frame, bind_of_ok hv]
  exact hpoised.pushReady whole (fun _ _ => List.mem_cons_self ..) next

/-- Assigning a local. -/
theorem Poised.setLocal (poised : m.Poised C hands (false :: P)) (whole : C.building = none)
    (lt : i < P.length) (next : C.listing.At C.frame.ip (false :: P)) :
    Ends (fun _ m' => m'.Ready) (execute .setLocal i m) := by
  have hlt : C.frame.slots + i < m.stack.size := by
    rw [poised.height, ← poised.slots, List.length_cons]
    omega
  obtain ⟨v, hpeek, -, hpeeked⟩ := poised.peek 0 (by simp)
  obtain ⟨hset, hpoised⟩ := hpeeked.setSlot hlt (List.mem_cons_self ..)
  rw [execute, bind_of_ok poised.frame, bind_of_ok hpeek, hset]
  exact .ok (hpoised.ready whole next)

/-- Reading a captured variable. -/
theorem Poised.getUpvalue (poised : m.Poised C hands P) (whole : C.building = none)
    (lt : i < C.function.upvalueCount) (next : C.listing.At C.frame.ip (false :: P)) :
    Ends (fun _ m' => m'.Ready) (execute .getUpvalue i m) := by
  obtain ⟨cell, state, hcell, hstate, hpoised⟩ := poised.capturedCell lt (by simp [whole])
  obtain ⟨v, hv, hread⟩ := hpoised.readCell (List.mem_cons_self ..) hstate
  rw [execute, bind_of_ok hcell, bind_of_ok hv]
  exact hread.pushReady whole (fun _ _ => List.mem_cons_self ..) next

/-- Assigning a captured variable. -/
theorem Poised.setUpvalue (poised : m.Poised C hands (false :: P)) (whole : C.building = none)
    (lt : i < C.function.upvalueCount) (next : C.listing.At C.frame.ip (false :: P)) :
    Ends (fun _ m' => m'.Ready) (execute .setUpvalue i m) := by
  obtain ⟨cell, state, hcell, hstate, hpoised⟩ := poised.capturedCell lt (by simp [whole])
  obtain ⟨v, hpeek, -, hpeeked⟩ := hpoised.peek 0 (by simp)
  obtain ⟨m', hwrite, hwritten⟩ := hpeeked.writeCell (g := cell) (by simp) hstate
    (List.mem_cons_self ..)
  rw [execute, bind_of_ok hcell, bind_of_ok hpeek, hwrite]
  exact .ok (hwritten.ready whole next)

/-- Taking a captured variable off the stack. -/
theorem Poised.closeTop (poised : m.Poised C hands (b :: P)) (whole : C.building = none)
    (next : C.listing.At C.frame.ip P) :
    Ends (fun _ m' => m'.Ready) (execute .closeUpvalue i m) := by
  have hheight := poised.height
  rw [List.length_cons] at hheight
  obtain ⟨heap, kept, hclose, hclosed, hkept⟩ := poised.closeFrom (m.stack.size - 1)
  -- no cell is open for the slot on top any more
  have hfree := hclosed.reprofile (Q := false :: P) rfl fun e he => by
    have hshares := hclosed.shares e he
    have hlt : e.1 < (P ++ C.below).length := by
      have := hkept e he
      rw [List.length_append]
      omega
    rw [List.cons_append, Profile.shares_cons_of_lt hlt] at hshares ⊢
    exact hshares
  obtain ⟨v, hpop, -, hpopped⟩ := hfree.pop
  rw [execute, Machine.closeTop, bind_of_ok (get_apply m), if_neg (by omega)]
  beta_reduce
  rw [bind_of_ok hclose, bind_of_ok hpop]
  exact .ok (hpopped.ready whole next)

/-! ### Operators -/

/-- Replacing the value on top of the stack. -/
theorem Poised.unary (poised : m.Poised C hands (false :: P)) (whole : C.building = none)
    (unary : op.isUnary = true) (next : C.listing.At C.frame.ip (false :: P)) :
    Ends (fun _ m' => m'.Ready) (execute op i m) := by
  obtain ⟨w, hpop, -, hpopped⟩ := poised.pop
  cases op <;> cases unary
  · rw [execute, bind_of_ok hpop]
    exact hpopped.pushReady whole (by simp) next
  · obtain ⟨v, hpeek, -, -⟩ := poised.peek 0 (by simp)
    rw [execute, negate, bind_of_ok hpeek]
    split
    · rw [bind_of_ok hpop]
      exact hpopped.pushReady whole (by simp) next
    · exact poised.raise whole (by decide)

/-- Replacing two numbers on top of the stack. -/
theorem Poised.binary (poised : m.Poised C hands (false :: false :: P)) (whole : C.building = none)
    {operation : Float → Float → Value} (plain : ∀ x y h, operation x y ≠ .object h)
    (next : C.listing.At C.frame.ip (false :: P)) :
    Ends (fun _ m' => m'.Ready) (Machine.binary operation m) := by
  obtain ⟨left, hleft, -, -⟩ := poised.peek 1 (by simp)
  obtain ⟨right, hright, -, -⟩ := poised.peek 0 (by simp)
  obtain ⟨_, hpop, -, hpopped⟩ := poised.pop
  obtain ⟨_, hpop', -, hpopped'⟩ := hpopped.pop
  rw [Machine.binary, bind_of_ok hleft, bind_of_ok hright]
  split
  · rw [bind_of_ok hpop, bind_of_ok hpop']
    exact hpopped'.pushReady whole (fun h hh => absurd hh (plain _ _ h)) next
  · exact poised.raise whole (by decide)

/-- Whether an object in the hands is a string. -/
theorem Poised.isString (poised : m.Poised C hands P) (mem : .object h ∈ hands) :
    (ask (fun m => m.heap.isString (.object h)) m = .ok false m) ∨
    (ask (fun m => m.heap.isString (.object h)) m = .ok true m ∧
      ∃ text, m.heap.object? h = some (.string text)) := by
  obtain ⟨o, ho⟩ := poised.kind mem
  have hask : ask (fun m => m.heap.isString (.object h)) m =
      .ok (decide (o.kind = .string)) m := by
    refine ask_of_ok ?_
    simp [Heap.isString, Heap.kind_of_object? ho, bind, Except.bind, pure, Except.pure]
  cases o with
  | string text => exact .inr ⟨hask, text, ho⟩
  | function | native | closure | cell => exact .inl hask

/-- Adding two numbers or joining two strings. -/
theorem Poised.add (poised : m.Poised C hands (false :: false :: P)) (whole : C.building = none)
    (next : C.listing.At C.frame.ip (false :: P)) :
    Ends (fun _ m' => m'.Ready) (Machine.add m) := by
  obtain ⟨left, hleft, -, hpoised⟩ := poised.peek 1 (by simp)
  obtain ⟨right, hright, -, hpoised'⟩ := hpoised.peek 0 (by simp)
  obtain ⟨_, hpop, -, hpopped⟩ := poised.pop
  obtain ⟨_, hpop', -, hpopped'⟩ := hpopped.pop
  rw [Machine.add, bind_of_ok hleft, bind_of_ok hright]
  split
  · rw [bind_of_ok hpop, bind_of_ok hpop']
    exact hpopped'.pushReady whole (by simp) next
  · rename_i g h
    rcases hpoised'.isString (h := g) (by simp) with hno | ⟨hyes, text, hg⟩
    · rw [bind_of_ok hno]
      exact poised.raise whole (by decide)
    rw [bind_of_ok hyes]
    rcases hpoised'.isString (h := h) (by simp) with hno | ⟨hyes', text', hh⟩
    · simp only [Bool.not_true, Bool.false_eq_true, if_false]
      rw [bind_of_ok hno]
      exact poised.raise whole (by decide)
    simp only [Bool.not_true, Bool.false_eq_true, if_false]
    rw [bind_of_ok hyes']
    simp only [Bool.not_true, Bool.false_eq_true, if_false]
    refine (poised.concat hg hh).bind ?_
    rintro joined m' ⟨-, hjoined⟩
    obtain ⟨_, hpop, -, hpopped⟩ := hjoined.pop
    obtain ⟨_, hpop', -, hpopped'⟩ := hpopped.pop
    rw [bind_of_ok hpop, bind_of_ok hpop']
    exact hpopped'.pushReady whole (by simp) next
  · exact poised.raise whole (by decide)

/-- Replacing two values on top of the stack by one. -/
theorem Poised.operator (poised : m.Poised C hands (false :: false :: P))
    (whole : C.building = none) (isBinary : op.isBinary = true)
    (next : C.listing.At C.frame.ip (false :: P)) :
    Ends (fun _ m' => m'.Ready) (execute op i m) := by
  cases op <;> cases isBinary
  case equal =>
    obtain ⟨_, hpop, -, hpopped⟩ := poised.pop
    obtain ⟨_, hpop', -, hpopped'⟩ := hpopped.pop
    rw [execute, bind_of_ok hpop, bind_of_ok hpop']
    exact hpopped'.pushReady whole (by simp) next
  case add => exact poised.add whole next
  all_goals exact poised.binary whole (by simp) next

/-! ### Control -/

/-- What has been printed does not matter. -/
theorem Poised.reprint (poised : m.Poised C hands P) (printout : Printout) :
    ({ m with printout } : Machine).Poised C hands P :=
  { poised with }

/-- Taking a value off the stack for good. -/
theorem Poised.dropTop (poised : m.Poised C hands (false :: P)) (whole : C.building = none)
    (isDrop : op.isDrop = true) (next : C.listing.At C.frame.ip P) :
    Ends (fun _ m' => m'.Ready) (execute op i m) := by
  obtain ⟨v, hpop, -, hpopped⟩ := poised.pop
  cases op <;> cases isDrop
  · rw [execute, bind_of_ok hpop]
    exact .ok (hpopped.ready whole next)
  · obtain ⟨text, htext⟩ := hpopped.display (List.mem_cons_self ..)
    rw [execute, print, bind_of_ok hpop, bind_of_ok (ask_of_ok htext), modify_apply]
    exact .ok ((hpopped.reprint _).ready whole next)

/-- Jumping ahead. -/
theorem Poised.jump (poised : m.Poised C hands P) (whole : C.building = none) {distance : Nat}
    (next : C.listing.At (C.frame.ip + distance) P) :
    Ends (fun _ m' => m'.Ready) (Machine.jump distance m) := by
  rw [Machine.jump, bind_of_ok poised.frame]
  exact poised.goReady whole next

/-- Jumping ahead if the value on top of the stack is falsey. -/
theorem Poised.jumpIfFalse (poised : m.Poised C hands (false :: P)) (whole : C.building = none)
    {distance : Nat} (next : C.listing.At C.frame.ip (false :: P))
    (target : C.listing.At (C.frame.ip + distance) (false :: P)) :
    Ends (fun _ m' => m'.Ready) (execute .jumpIfFalse distance m) := by
  obtain ⟨v, hpeek, -, -⟩ := poised.peek 0 (by simp)
  rw [execute, bind_of_ok hpeek]
  split
  · exact poised.jump whole target
  · exact .ok (poised.ready whole next)

/-- Jumping back. -/
theorem Poised.jumpBack (poised : m.Poised C hands P) (whole : C.building = none) {distance : Nat}
    (le : distance ≤ C.frame.ip) (next : C.listing.At (C.frame.ip - distance) P) :
    Ends (fun _ m' => m'.Ready) (Machine.jumpBack distance m) := by
  rw [Machine.jumpBack, bind_of_ok poised.frame]
  simp only [if_pos le]
  exact poised.goReady whole next

/-! ### Calls -/

/-- Calling a closure whose arguments lie on top of the stack. -/
theorem call_spec {c : Closure} (below : Profile)
    (secure : m.heap.Secure m.openCells.entries none m.rooted)
    (reaches : m.heap.Reaches m.rooted h) (hc : m.heap.object? h = some (.closure c))
    (onStack : .object h ∈ m.stack.toList) (calls : m.heap.Calls m.frames below)
    (height : m.stack.size = count + 1 + below.length)
    (script : m.frames = [] → ∀ f, m.heap.object? c.function = some (.function f) → f.name = none)
    (shares : ∀ e ∈ m.openCells.entries,
      Profile.shares e.1 (List.replicate (count + 1) false ++ below) = true)
    (traces : ∀ fr ∈ m.frames, ∃ t, traceLine m.heap fr = .ok t)
    (depth : m.frames.length ≤ maxFrames) (room : m.stack.size ≤ m.stackMax) :
    Ends (fun _ m' => m'.Ready) (call h count m) := by
  have inside : ∀ e ∈ m.openCells.entries, e.1 < m.stack.size := fun e he => by
    have := Profile.lt_of_shares (shares e he)
    simpa [height] using this
  obtain ⟨f, hf, -, -, -⟩ := secure.closure reaches hc
  rw [call, bind_of_ok (ask_of_ok (Heap.closure_eq_ok_iff.mpr hc)),
    bind_of_ok (ask_of_ok (Heap.function_eq_ok_iff.mpr hf)), bind_of_ok (get_apply m)]
  split
  · exact raise_spec (by simp [Cause.kind]) secure inside traces
  rename_i harity
  split
  · exact raise_spec (by decide) secure inside traces
  rename_i hdepth
  rw [if_neg (by omega), modify_apply]
  obtain rfl : count = f.arity := Decidable.not_not.mp harity
  obtain ⟨constants, L, hruns, hat⟩ := secure.runs reaches hc hf (m.stack.size - f.arity - 1)
  have hlt := hat.lt hruns.listed
  rw [Listing.size, ← hruns.code, Array.length_toList] at hlt
  let C : Call :=
    { frame := { closure := h, function := c.function, slots := m.stack.size - f.arity - 1 }
      function := f, constants, listing := L, outer := m.frames, below }
  have poised : ({ m with frames := C.frame :: m.frames } : Machine).Poised C []
      (List.replicate (f.arity + 1) false) := {
    secure := secure.of_reaches fun g hg => by
      simp only [mem_holding, mem_rooted, List.not_mem_nil, false_or] at hg
      refine .root (mem_rooted.mpr ?_)
      rcases hg with hg | ⟨fr, hfr, rfl⟩ | hg
      · exact .inl hg
      · rcases List.mem_cons.mp hfr with rfl | hfr
        · exact .inl onStack
        · exact .inr (.inl ⟨fr, hfr, rfl⟩)
      · exact .inr (.inr hg)
    frames := rfl
    runs := hruns
    calls := calls
    script := fun hnone => script hnone f hf
    slots := by simp only [C]; omega
    height := by rw [List.length_replicate]; exact height
    shares := shares
    inside := by simpa [C] using hlt
    depth := by simp only [List.length_cons]; omega
    room := room }
  exact .ok (poised.ready rfl hat)

/-- Calling a host function that conforms. -/
theorem Poised.callNative (poised : m.Poised C hands (List.replicate (count + 1) false ++ P))
    (whole : C.building = none) {native : Native} (conforms : native.run.Conforms)
    (next : C.listing.At C.frame.ip (false :: P)) :
    Ends (fun _ m' => m'.Ready) (callNative native count m) := by
  have hheight := poised.height
  rw [List.length_append, List.length_replicate] at hheight
  let result := native.run (m.clock m.hostCalls)
    (m.stack.extract (m.stack.size - count) m.stack.size)
  -- an object that is given back is one of the arguments
  have hresult : ∀ g, result = .object g → .object g ∈ m.stack.toList := fun g hg => by
    have hmem := conforms _ _ g hg
    rw [Array.toList_extract] at hmem
    exact List.mem_of_mem_drop (List.mem_of_mem_take hmem)
  have htaken : m.Poised C (result :: hands) (List.replicate (count + 1) false ++ P) :=
    poised.handle fun g hg => by
      rcases List.mem_cons.mp hg with heq | hg
      · exact .inr (hresult g heq.symm)
      · exact .inl hg
  have hcounted : ({ m with hostCalls := m.hostCalls + 1 } : Machine).Poised C (result :: hands)
      (List.replicate (count + 1) false ++ P) := { htaken with }
  have hshrunk : Poised { m with
      hostCalls := m.hostCalls + 1
      stack := m.stack.shrink (m.stack.size - count - 1) } C (result :: hands) P := hcounted.restack
    (fun g hg => hg.imp_right fun hg => by
      rw [Array.toList_shrink] at hg
      exact List.mem_of_mem_take hg)
    (by simp; omega)
    (fun e he => Profile.shares_of_replicate (by
      rw [← List.append_assoc]
      exact poised.shares e he))
    (by
      have := poised.room
      simp
      omega)
  rw [Machine.callNative, bind_of_ok (get_apply m), bind_of_ok (modify_apply _ m), truncate,
    bind_of_ok (modify_apply _ _)]
  exact hshrunk.pushReady whole (fun _ _ => List.mem_cons_self ..) next

/-- Calling the value under the arguments. -/
theorem Poised.callValue (poised : m.Poised C hands (List.replicate (count + 1) false ++ P))
    (whole : C.building = none) (next : C.listing.At C.frame.ip (false :: P))
    (called : C.listing.Called C.frame.ip) :
    Ends (fun _ m' => m'.Ready) (callValue count m) := by
  have hheight := poised.height
  rw [List.length_append, List.length_replicate] at hheight
  obtain ⟨v, hpeek, hv, hpeeked⟩ := poised.peek count (by simp; omega)
  rw [Machine.callValue, bind_of_ok hpeek]
  split
  · rename_i h
    have honstack : Value.object h ∈ m.stack.toList :=
      Array.mem_toList_iff.mpr (Array.mem_of_getElem? hv)
    obtain ⟨o, ho⟩ := hpeeked.kind (List.mem_cons_self ..)
    rw [bind_of_ok (ask_of_ok (Heap.kind_of_object? ho))]
    cases o with
    | closure c =>
        have hsecure := whole ▸ poised.drop.secure
        refine call_spec (P ++ C.below) hsecure
          (.root (mem_rooted.mpr (.inl honstack))) ho honstack ?_ (by simp; omega)
          (fun hnone => ?_) (fun e he => ?_) poised.traces poised.depth poised.room
        · rw [poised.frames]
          exact .cons ⟨_, _, _, poised.runs, next, called, poised.script⟩ poised.calls poised.slots
        · rw [poised.frames] at hnone
          cases hnone
        · rw [← List.append_assoc]
          exact poised.shares e he
    | native n =>
        have hconforms : n.run.Conforms := by
          cases hpeeked.secure.fine h _ (reaches_hands (List.mem_cons_self ..)) ho with
          | native hconforms => exact hconforms
        simp only [Object.kind]
        rw [bind_of_ok (ask_of_ok (Heap.native_eq_ok_iff.mpr ho))]
        exact poised.callNative whole hconforms next
    | string | function | cell => exact poised.raise whole (by decide)
  · exact poised.raise whole (by decide)

end Machine

end Lox
