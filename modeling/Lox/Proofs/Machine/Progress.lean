import Lox.Proofs.Machine.Instructions

/-!
# Progress

A machine that is ready takes a step: it is ready again, or its script has ended and it is idle,
or a runtime error that is the fault of the program has left it idle, or a collection overflows.
Hence it can run for any number of instructions.

## Main definitions

* `Machine.Building` — a closure that captures its variables.
* `Machine.Continues` — a machine after a step.

## Main results

* `Poised.makeClosure`, `Poised.giveBack` — making a closure, and the end of a call.
* `Ready.step`, `Ready.run` — one step, and any number of steps.
-/

namespace Lox.Machine

variable {m : Machine} {C : Call} {hands : List Value} {P Q : Profile} {v : Value} {g h : Handle}
  {o : Object} {i n : Nat} {b : Bool} {f : Function}

/-! ### Closures -/

/-- A poised machine that builds a closure, which lies on the stack and has captured some of its
variables. -/
structure Building (m : Machine) (C : Call) (P : Profile) (h : Handle) (f : Function) (n : Nat) :
    Prop where
  poised : m.Poised C [] P
  building : C.building = some h
  other : C.frame.closure ≠ h
  onStack : .object h ∈ m.stack.toList
  closure : ∃ c, m.heap.object? h = some (.closure c) ∧
    m.heap.object? c.function = some (.function f) ∧ c.cells.size = n

/-- A closure captures a cell in the hands. -/
theorem Building.capture (build : m.Building C P h f n) {cell : Handle} {state : Cell}
    (poised : m.Poised C [.object cell] P) (hcell : m.heap.object? cell = some (.cell state)) :
    ∃ m', onHeap (Heap.capture h cell) m = .ok () m' ∧ m'.Building C P h f (n + 1) := by
  obtain ⟨c, hc, hf, hsize⟩ := build.closure
  have hreach : m.heap.Reaches (m.holding [.object cell]) h :=
    .root (mem_holding.mpr (.inr (mem_rooted.mpr (.inl build.onStack))))
  obtain ⟨-, -, -, hcells, -⟩ := poised.secure.closure hreach hc
  have hpoised := poised.replace (h := h) (o := .closure (c.capture cell)) hc (.inr rfl) rfl
    (fun g hg => ?_) ?_ (fun slot hmem => ?_) (fun c' hc' => ?_)
  · refine ⟨_, ?_, hpoised.drop, build.building, build.other, build.onStack,
      c.capture cell, ?_, ?_, ?_⟩
    · simp only [onHeap, Heap.capture, Heap.closure_eq_ok_iff.mpr hc]
    · simp [Heap.object?_replace ⟨_, hc⟩]
    · have hne : c.function ≠ h := by
        rintro heq
        simp [heq, hc] at hf
      simp [Heap.object?_replace ⟨_, hc⟩, Closure.capture, hne, hf]
    · simp [Closure.capture, hsize]
  · simp only [Object.children, Closure.capture, Array.toList_push, List.map_append, List.map_cons,
      List.map_nil, List.mem_cons, List.mem_append, List.not_mem_nil, or_false,
      Value.object.injEq] at hg
    rcases hg with rfl | hg | rfl
    · exact hreach.child hc (by simp [Object.children])
    · exact hreach.child hc (by simp only [Object.children, List.mem_cons]; exact .inr hg)
    · exact reaches_hands (List.mem_cons_self ..)
  · refine .closure hf (fun g hg => ?_) fun hne => absurd build.building.symm hne
    rw [Closure.capture, Array.toList_push, List.mem_append, List.mem_singleton] at hg
    rcases hg with hg | rfl
    · exact hcells g hg
    · exact ⟨state, hcell⟩
  · have := poised.secure.opened _ hmem
    simp [hc] at this
  · obtain rfl := Object.closure.inj hc'
    exact ⟨_, rfl, rfl⟩

/-- A closure goes on capturing in a later heap. -/
theorem Building.later {m' : Machine} (build : m.Building C P h f n)
    (poised : m'.Poised C [] P) (stack : m'.stack = m.stack)
    (keeps : m.heap.Keeps m.rooted m'.heap) : m'.Building C P h f n := by
  obtain ⟨c, hc, hf, hsize⟩ := build.closure
  have hreach : m.heap.Reaches m.rooted h := .root (mem_rooted.mpr (.inl build.onStack))
  exact ⟨poised, build.building, build.other, stack ▸ build.onStack, c, keeps _ _ hreach hc,
    keeps _ _ (hreach.child hc (by simp [Object.children])) hf, hsize⟩

/-- A closure captures a variable that is described in the code. -/
theorem Building.captureNext (build : m.Building C P h f n) {capture : Capture}
    (reads : C.function.chunk.Reads C.frame.ip capture.bytes)
    (reachable : capture.Reachable P C.function.upvalueCount) :
    Ends (fun _ m' => m'.Building (C.after 2) P h f (n + 1)) (captureNext h m) := by
  have hfirst := reads 0 (by simp [Capture.bytes])
  have hsecond := reads 1 (by simp [Capture.bytes])
  simp only [Capture.bytes, List.getElem?_cons_zero, List.getElem?_cons_succ,
    Nat.add_zero] at hfirst hsecond
  obtain ⟨m₁, hread₁, hpoised₁, hheap₁, hstack₁, -⟩ := build.poised.readByte hfirst
  obtain ⟨m₂, hread₂, hpoised₂, hheap₂, hstack₂, -⟩ := hpoised₁.readByte hsecond
  have hpoised₂ : m₂.Poised (C.after 2) [] P := hpoised₂
  have hbuild : m₂.Building (C.after 2) P h f n := by
    obtain ⟨c, hc, hf, hsize⟩ := build.closure
    refine ⟨hpoised₂, build.building, build.other, ?_, c, ?_, ?_, hsize⟩
    · rw [hstack₂, hstack₁]
      exact build.onStack
    · rw [hheap₂, hheap₁]
      exact hc
    · rw [hheap₂, hheap₁]
      exact hf
  rw [Machine.captureNext, bind_of_ok hread₁, bind_of_ok hread₂]
  cases hlocal : capture.isLocal with
  | true =>
      have hshared : Profile.shares ((C.after 2).frame.slots + capture.index.toNat)
          (P ++ (C.after 2).below) = true := by
        rw [← hpoised₂.slots, Profile.shares_append_add]
        simpa [Capture.Reachable, hlocal] using reachable
      rw [if_pos rfl, if_pos (by decide), bind_of_ok hpoised₂.frame]
      refine (hpoised₂.openCell hshared).bind ?_
      rintro cell m₃ ⟨heq, hkeeps, hcell, hpoised₃⟩
      obtain ⟨m', hrun, hdone⟩ := (hbuild.later hpoised₃.drop (by rw [heq]) hkeeps).capture
        hpoised₃ hcell
      beta_reduce
      rw [hrun]
      exact .ok hdone
  | false =>
      have hlt : capture.index.toNat < C.function.upvalueCount := by
        simpa [Capture.Reachable, hlocal] using reachable
      obtain ⟨cell, state, hcaptured, hstate, hpoised₃⟩ := hpoised₂.capturedCell hlt
        (by rw [hbuild.building]; exact fun heq => build.other (Option.some.inj heq))
      obtain ⟨m', hrun, hdone⟩ := hbuild.capture (hpoised₃.handle (by simp)) hstate
      rw [if_neg Bool.false_ne_true, if_neg (by decide), bind_of_ok hcaptured]
      beta_reduce
      rw [hrun]
      exact .ok hdone

/-- A closure captures all variables that are described in the code. -/
theorem Building.captureAll {captures : List Capture} (build : m.Building C P h f n)
    (reads : C.function.chunk.Reads C.frame.ip (captures.flatMap Capture.bytes))
    (reachable : ∀ c ∈ captures, c.Reachable P C.function.upvalueCount) :
    Ends (fun _ m' => m'.Building (C.after (2 * captures.length)) P h f (n + captures.length))
      (captureAll h captures.length m) := by
  induction captures generalizing m C n with
  | nil => exact .ok build
  | cons c captures ih =>
      rw [List.length_cons, Machine.captureAll]
      rw [List.flatMap_cons] at reads
      refine (build.captureNext reads.left (reachable c (List.mem_cons_self ..))).bind ?_
      rintro _ m' hbuild
      have hmore := ih hbuild reads.right fun d hd => reachable d (List.mem_cons_of_mem _ hd)
      rw [Nat.add_comm captures.length 1,  Nat.mul_add]
      exact hmore.imp fun _ m'' hdone => by
        simpa only [Call.after, Call.goto, Nat.add_assoc] using hdone

/-- A closure that has captured all its variables can be relied on. -/
theorem Building.done (build : m.Building C P h f f.upvalueCount) :
    m.Poised { C with building := none } [] P := by
  obtain ⟨c, hc, hf, hsize⟩ := build.closure
  have hsecure := build.poised.secure
  rw [build.building] at hsecure
  exact { build.poised with secure := hsecure.built hc hf hsize }

/-- A new closure is put on the stack, where it is built. -/
theorem Poised.startClosure (poised : m.Poised C [] P) (whole : C.building = none)
    (reaches : m.heap.Reaches m.rooted g) (hf : m.heap.object? g = some (.function f)) {room : Nat}
    (hc : m.heap.object? h = some (.closure { function := g, room }))
    (other : C.frame.closure ≠ h) :
    Ends (fun _ m' => m'.Building { C with building := some h } (false :: P) h f 0 ∧
      m'.heap = m.heap) (Machine.push (.object h) m) := by
  unfold Machine.push
  split
  · exact poised.raise whole (by decide)
  · rename_i hroom
    have hsecure := poised.secure
    rw [whole] at hsecure
    have hbuild : m.Poised { C with building := some h } [] P :=
      { poised with secure := hsecure.build h }
    have htaken := hbuild.take hc (fun c hmem => by
      obtain rfl : c = g := by simpa [Object.children] using hmem
      exact reaches) (.closure hf (by simp) (fun hne => absurd rfl hne))
    have hpushed := htaken.pushed (v := .object h) (by simp) (Nat.not_le.mp hroom)
    exact .ok ⟨⟨hpushed.drop, rfl, other, by simp, _, hc, hf, rfl⟩, rfl⟩

/-- Making a closure of a constant. -/
theorem Poised.makeClosure (poised : m.Poised C hands P) (whole : C.building = none)
    {t : Template} {inner : List Constant} {captures : List Capture}
    (found : C.constants[i]? = some (.function t inner))
    (count : captures.length = t.upvalueCount)
    (reads : C.function.chunk.Reads C.frame.ip (captures.flatMap Capture.bytes))
    (reachable : ∀ c ∈ captures, c.Reachable (b :: P) C.function.upvalueCount)
    (next : C.listing.At (C.frame.ip + 2 * captures.length) (b :: P)) :
    Ends (fun _ m' => m'.Ready) (execute .closure i m) := by
  obtain ⟨v, hv, hholds, htyped, hreach⟩ := poised.constant found
  rw [execute, Machine.makeClosure, bind_of_ok hv]
  cases hholds with
  | @function fh f name _ hf hnamed hsize hall =>
      have hfreach : m.heap.Reaches m.rooted fh := hreach fh rfl
      have hroom : f.upvalueCount ≤ Draft.maxCaptures := by
        cases htyped with
        | function hlisted => exact hlisted.room
      have hcount : captures.length = f.upvalueCount := count
      refine (poised.withRoots _ (poised.drop.secure.allocateClosure hfreach hf hroom)).bind ?_
      rintro h m₁ ⟨heq, hkeeps, ⟨hclosure, hfresh⟩, hpoised₁⟩
      have hf₁ := hkeeps _ _ hfreach hf
      have hreach₁ : m₁.heap.Reaches m₁.rooted fh := by
        rw [show m₁.rooted = m.rooted by rw [heq]; rfl]
        exact hkeeps.reaches hfreach
      have hother : C.frame.closure ≠ h := hfresh _ (poised.drop.reaches_closure)
      refine (hpoised₁.startClosure whole hreach₁ hf₁ hclosure hother).bind ?_
      rintro _ m₂ ⟨hbuild, hheap⟩
      rw [bind_of_ok (ask_of_ok (Heap.function_eq_ok_iff.mpr (hheap ▸ hf₁))), ← hcount]
      -- the slot of the new closure may be shared by the closure itself
      have hweak : m₂.Building { C with building := some h } (b :: P) h f 0 :=
        ⟨hbuild.poised.weaken (.cons (fun hf => by cases hf) (Profile.Weakens.refl P)),
          hbuild.building, hbuild.other, hbuild.onStack, hbuild.closure⟩
      refine (hweak.captureAll reads reachable).imp ?_
      rintro _ m₃ hdone
      rw [Nat.zero_add, hcount] at hdone
      exact hdone.done.ready rfl (hcount ▸ next)

/-! ### The end of a call -/

/-- How a machine goes on after a step. -/
def Continues : Status → Machine → Prop
  | .running, m => m.Ready
  | .halted, m => m.Idle

/-- The end of a call. -/
theorem Poised.giveBack (poised : m.Poised C hands (false :: P)) (whole : C.building = none) :
    Ends Continues (Machine.giveBack m) := by
  obtain ⟨v, hpop, -, hpopped⟩ := poised.pop
  have hframes := poised.frames
  have hslots := poised.slots
  obtain ⟨heap, kept, hclose, hsecure, hendures, hkept⟩ := closeFrom_spec
    (m := { m with stack := m.stack.pop, frames := C.outer }) C.frame.slots hpopped.secure
    (fun _ he => hpopped.open_lt he)
    fun h hh => mem_holding.mpr (.inr (mem_rooted.mpr (.inl hh)))
  rw [whole] at hsecure
  rw [Machine.giveBack, bind_of_ok hpop, bind_of_ok (get_apply _)]
  simp only [hframes]
  rw [bind_of_ok (modify_apply _ _), bind_of_ok hclose, truncate, bind_of_ok (modify_apply _ _)]
  -- nothing is kept alive that was not kept alive before
  have hfewer : heap.Secure kept none (holding
      { m with heap, openCells := ⟨kept⟩, stack := m.stack.pop.shrink C.frame.slots,
               frames := C.outer } [v]) := by
    refine hsecure.of_reaches fun g hg => .root ?_
    simp only [mem_holding, mem_rooted, hframes, List.mem_cons, exists_eq_or_imp,
      Array.toList_shrink] at hg ⊢
    rcases hg with hg | hg | hg | ⟨e, he, rfl⟩ | hg
    · exact .inl (hg.imp_right (absurd · List.not_mem_nil))
    · exact .inr (.inl (List.mem_of_mem_take hg))
    · exact .inr (.inr (.inl (.inr hg)))
    · exact .inr (.inr (.inr (.inl ⟨e, (hkept e he).1, rfl⟩)))
    · exact .inr (.inr (.inr (.inr hg)))
  have hsize : (m.stack.pop.shrink C.frame.slots).size = C.below.length := by
    have := poised.height
    rw [List.length_cons] at this
    simp [← hslots]
    omega
  have hshares : ∀ e ∈ kept, C.below.shares e.1 = true := fun e he => by
    have hlt := (hkept e he).2
    rw [← hslots] at hlt
    rw [← Profile.shares_append_of_lt hlt]
    exact hpopped.shares e (hkept e he).1
  have hcalls := poised.calls
  have hdepth := poised.depth
  have hroom := poised.room
  rw [hframes, List.length_cons] at hdepth
  generalize C.outer = outer at hcalls hfewer hdepth ⊢
  generalize C.below = below at hcalls hslots hsize hshares
  cases hcalls with
  | nil =>
      rw [List.length_nil] at hsize
      obtain rfl : kept = [] := List.eq_nil_iff_forall_not_mem.mpr fun e he => by
        cases hshares e he
      refine .ok ⟨Array.eq_empty_of_size_eq_zero hsize, rfl, rfl, hfewer.of_reaches fun g hg => ?_⟩
      exact .root (mem_holding.mpr (.inr hg))
  | @cons fr outer' P' below' hawaits hcalls' hslots' =>
      obtain ⟨f', constants', L', hruns', hat', -, hscript'⟩ := hawaits
      have hlt := hat'.lt hruns'.listed
      rw [Listing.size, ← hruns'.code, Array.length_toList] at hlt
      let C' : Call :=
        { frame := fr, function := f', constants := constants', listing := L', outer := outer'
          below := below' }
      have poised' : Poised { m with
          heap, openCells := ⟨kept⟩, stack := m.stack.pop.shrink C.frame.slots,
          frames := fr :: outer' } C' [v] P' := {
        secure := hfewer
        frames := rfl
        runs := hruns'.endures hendures trivial
        calls := hcalls'.endures hendures fun _ _ => trivial
        script := hscript'
        slots := hslots'
        height := by rw [hsize, List.length_append]
        shares := hshares
        inside := by simp only [C']; omega
        depth := Nat.le_of_succ_le hdepth
        room := by
          rw [Array.size_shrink, Array.size_pop]
          simp only
          omega }
      simp only [List.isEmpty_cons, Bool.false_eq_true, if_false]
      refine (poised'.pushReady rfl (fun _ _ => List.mem_cons_self ..) hat').bind ?_
      rintro _ m' hready
      exact .ok hready

/-! ### Steps -/

/-- An instruction other than the end of a call is read and executed. -/
theorem Poised.step {bs : List UInt8} {op : OpCode} {operand : Nat} (poised : m.Poised C [] P)
    (reads : C.function.chunk.Reads C.frame.ip bs) (form : OpCode.Form op operand bs)
    (other : op ≠ .giveBack)
    (executes : ∀ m', m'.Poised (C.after (1 + op.width)) [] P →
      Ends (fun _ m' => m'.Ready) (execute op operand m')) : Ends Continues (Machine.step m) := by
  obtain ⟨m', hfetch, hpoised, -⟩ := poised.fetch form reads
  rw [Machine.step, bind_of_ok hfetch]
  simp only [if_neg other]
  refine (executes m' hpoised).bind ?_
  rintro _ m'' hready
  exact .ok hready

/-- One step of a machine that is ready. -/
theorem Ready.step (ready : m.Ready) : Ends Continues (Machine.step m) := by
  obtain ⟨C, P, poised, whole, pre, post, hsplit, hip, henters⟩ := ready
  rcases post with _ | ⟨⟨profile, bytes⟩, post⟩
  · exact henters.elim
  have fits := poised.runs.listed pre _ post hsplit
  have reads : C.function.chunk.Reads C.frame.ip bytes := by
    rw [hip]
    exact Listing.reads (poised.runs.code.trans (by rw [hsplit]))
  rw [← hip] at fits
  have poised := poised.weaken henters
  clear henters
  cases fits with
  | @literal op _ h next =>
      cases op <;> cases h
      all_goals
        exact poised.step reads (.plain rfl (by decide)) (by decide) fun m' hposed =>
          hposed.pushReady whole (by simp) next
  | constant h _ next =>
      refine poised.step reads (.short rfl (by decide)) (by decide) fun m' hposed => ?_
      obtain ⟨v, hv, -, -, hreach⟩ := hposed.constant h
      have htaken : m'.Poised _ [v] _ := hposed.reach fun g hg =>
        hreach g (List.mem_singleton.mp hg).symm
      rw [execute, bind_of_ok hv]
      exact htaken.pushReady whole (fun _ _ => List.mem_cons_self ..) next
  | @drop op _ h _ next =>
      cases op <;> cases h
      all_goals
        exact poised.step reads (.plain rfl (by decide)) (by decide) fun m' hposed =>
          hposed.dropTop whole rfl next
  | closeUpvalue _ next =>
      exact poised.step reads (.plain rfl (by decide)) (by decide) fun m' hposed =>
        hposed.closeTop whole next
  | getLocal h next =>
      exact poised.step reads (.short rfl (by decide)) (by decide) fun m' hposed =>
        hposed.getLocal whole h next
  | setLocal h next =>
      exact poised.step reads (.short rfl (by decide)) (by decide) fun m' hposed =>
        hposed.setLocal whole (by simpa using h) next
  | getGlobal h next =>
      exact poised.step reads (.short rfl (by decide)) (by decide) fun m' hposed =>
        hposed.getGlobal whole h next
  | defineGlobal h _ next =>
      exact poised.step reads (.short rfl (by decide)) (by decide) fun m' hposed =>
        hposed.defineGlobal whole h next
  | setGlobal h _ next =>
      exact poised.step reads (.short rfl (by decide)) (by decide) fun m' hposed =>
        hposed.assignGlobal whole h next
  | getUpvalue h next =>
      exact poised.step reads (.short rfl (by decide)) (by decide) fun m' hposed =>
        hposed.getUpvalue whole h next
  | setUpvalue h _ next =>
      exact poised.step reads (.short rfl (by decide)) (by decide) fun m' hposed =>
        hposed.setUpvalue whole h next
  | @unary op _ h _ next =>
      cases op <;> cases h
      all_goals
        exact poised.step reads (.plain rfl (by decide)) (by decide) fun m' hposed =>
          hposed.unary whole rfl next
  | @binary op _ h _ next =>
      cases op <;> cases h
      all_goals
        exact poised.step reads (.plain rfl (by decide)) (by decide) fun m' hposed =>
          hposed.operator whole rfl next
  | jump h next =>
      exact poised.step reads (.long rfl (by decide) h) (by decide) fun m' hposed =>
        hposed.jump whole next
  | jumpIfFalse h _ next target =>
      exact poised.step reads (.long rfl (by decide) h) (by decide) fun m' hposed =>
        hposed.jumpIfFalse whole next target
  | loop h le next =>
      exact poised.step reads (.long rfl (by decide) h) (by decide) fun m' hposed =>
        hposed.jumpBack whole le next
  | call _ next =>
      exact poised.step reads (.short rfl (by decide)) (by decide) fun m' hposed =>
        hposed.callValue whole next ⟨pre, _, _, post, hsplit, congrArg (· + 2) hip⟩
  | @closure i t inner captures b _ found count reachable next =>
      have hcaptures : C.function.chunk.Reads (C.frame.ip + (OpCode.closure.short i).length)
          (captures.flatMap Capture.bytes) := reads.right
      refine poised.step reads (.closure captures) (by decide) fun m' hposed => ?_
      exact hposed.makeClosure whole found count hcaptures reachable next
  | giveBack =>
      obtain ⟨m', hfetch, hpoised, -⟩ := poised.fetch (.plain rfl (by decide)) reads
      rw [Machine.step, bind_of_ok hfetch]
      exact hpoised.giveBack whole

/-! ### Runs -/

/-- A run that goes on after a step. -/
theorem run_succ_of_running {budget : Nat} (first : Machine.step m = .ok .running m') :
    Machine.run (budget + 1) m = Machine.run budget m' := by
  conv_lhs => unfold Machine.run
  rw [bind_of_ok first]

/-- A run that ends with a step. -/
theorem run_succ_of_halted {budget : Nat} (first : Machine.step m = .ok .halted m') :
    Machine.run (budget + 1) m = .ok .halted m' := by
  unfold Machine.run
  rw [bind_of_ok first]
  rfl

/-- A run that fails with a step. -/
theorem run_succ_of_error {budget : Nat} {i : Interruption} (first : Machine.step m = .error i m') :
    Machine.run (budget + 1) m = .error i m' := by
  unfold Machine.run
  rw [bind_of_error first]

/-- A machine that is ready runs on, as long as its budget lasts. -/
theorem Ready.run (ready : m.Ready) (budget : Nat) : Ends Continues (Machine.run budget m) := by
  induction budget generalizing m with
  | zero => exact .ok ready
  | succ budget ih =>
      refine ready.step.bind ?_
      rintro (_ | _) m' hcontinues
      · exact ih hcontinues
      · exact .ok hcontinues

end Lox.Machine
