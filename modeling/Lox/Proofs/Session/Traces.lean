import Lox.Proofs.Machine.Tracing
import Lox.Proofs.Session.Globals

/-!
# Traces of compiled programs

An error that stops a compiled program names the lines of the calls that are active. Whatever the
instruction is that fails, at whatever point of the run, the trace has one entry for each frame,
innermost first and the script last; and each entry names the function of its frame and the line of
the instruction that the frame executes.

The compiler writes all bytes of an instruction on one line (`Produces.lined`), also those that it
comes back to when it knows where a jump leads, and the machine relies on this for all functions
that it reaches (`Machine.Ready.traced`). What is left is the script itself: it becomes the
outermost call and stays so, and if not even this succeeds, there is no call that a trace could tell
of.

## Main results

* `runtime_trace` — every runtime error of every compiled program.
-/

namespace Lox.Session

variable {α β : Type} {m m' start compiled called : Machine} {e : RuntimeError} {script : Handle}
  {source : String}

/-! ### Before the script is called -/

/-- An end that is a runtime error only if it has an empty trace. -/
def Traceless (result : EStateM.Result Interruption Machine α) : Prop :=
  ∀ e m', result = .error (.raised e) m' → e.trace = []

theorem Traceless.bind {x : Action α} {f : α → Action β} (first : Traceless (x m))
    (rest : ∀ a mid, x m = .ok a mid → Traceless (f a mid)) : Traceless ((x >>= f) m) := by
  intro e m' hrun
  cases hx : x m with
  | ok a mid =>
      rw [bind_of_ok hx] at hrun
      exact rest a mid hx e m' hrun
  | error i mid =>
      rw [bind_of_error hx] at hrun
      cases hrun
      exact first e m' hx

/-- An error that is raised early has no trace if there are no calls. -/
theorem traceless_of_early {result : EStateM.Result Interruption Machine α}
    (early : Machine.Early m result) (frames : m.frames = []) : Traceless result := by
  intro e m' hrun
  obtain ⟨last, cause, hintact, hraise⟩ := early e m' hrun
  obtain ⟨-, htrace, -⟩ := Machine.raise_inv hraise
  rw [show last.frames = [] by rw [hintact.rest, frames]] at htrace
  exact (Except.ok.inj htrace).symm

/-- Making a closure changes nothing but the heap. -/
theorem allocateClosure_eq_ok {closure : Handle}
    (run : Machine.allocateClosure script m = .ok closure m') (orderly : m.heap.Orderly) :
    (∃ heap, m' = { m with heap }) ∧
      ∃ c, m'.heap.object? closure = some (.closure c) ∧ c.function = script := by
  unfold Machine.allocateClosure Machine.withRoots at run
  split at run
  · rename_i hmade
    cases run
    obtain ⟨room, hmade⟩ := Heap.allocate_of_allocateClosure hmade
    exact ⟨⟨_, rfl⟩, _, (Heap.allocated_of_ok orderly hmade).object?_self, rfl⟩
  · cases run

/-- Calling a script fails only before there is a call. -/
theorem callScript_traceless (idle : m.Idle) : Traceless (callScript script m) := by
  have frames := idle.frames
  refine .bind (traceless_of_early ((Machine.Intact.refl m).push _) frames) fun _ m₁ hpush => ?_
  obtain rfl := Machine.push_eq_ok hpush
  refine .bind (traceless_of_early (m := m) (Machine.Silent.withRoots _).early frames)
    fun closure m₂ hmade => ?_
  obtain ⟨⟨heap, rfl⟩, -⟩ := allocateClosure_eq_ok hmade idle.secure.valid.toOrderly
  rw [bind_of_ok (Machine.pop_apply _)]
  refine .bind (traceless_of_early ((Machine.Intact.refl _).push _) frames) fun _ m₃ hpush' => ?_
  obtain rfl := Machine.push_eq_ok hpush'
  exact traceless_of_early (Machine.call_early closure 0) frames

/-- A script that has been called is the only call. -/
theorem callScript_bottom (idle : m.Idle) (run : callScript script m = .ok () called) :
    called.bottom? = some script := by
  obtain ⟨⟨⟩, m₁, hpush, run⟩ := bind_eq_ok_iff.mp run
  obtain rfl := Machine.push_eq_ok hpush
  obtain ⟨closure, m₂, hmade, run⟩ := bind_eq_ok_iff.mp run
  obtain ⟨⟨heap, rfl⟩, c, hobject, rfl⟩ := allocateClosure_eq_ok hmade idle.secure.valid.toOrderly
  rw [bind_of_ok (Machine.pop_apply _)] at run
  obtain ⟨⟨⟩, m₃, hpush', run⟩ := bind_eq_ok_iff.mp run
  obtain ⟨c', f, hclosure, -, -, rfl⟩ := Machine.call_eq_ok run
  obtain rfl := Machine.push_eq_ok hpush'
  obtain rfl : c = c' := by simpa [hobject] using hclosure
  simp [Machine.bottom?, idle.frames]

/-! ### Compiled programs -/

/-- The functions of a compiled program have one line for each instruction. -/
theorem ruled_of_contains {heap : Heap} {f : Function} {g : Handle} (idle : m.Idle)
    (run : compile (.ofSource source) m.rooted m.heap = .ok (.ok script) heap)
    (contains : heap.Contains script g) (hf : heap.object? g = some (.function f)) :
    ∃ starts, heap.Ruled f.chunk starts := by
  have hterminated := terminated_ofSource source
  obtain ⟨-, -, program, t, constants, -, hholds, hscript, hcompiled⟩ :=
    compile_sound hterminated idle.secure.valid idle.secure.live run
  have hlined := Produces.lined ⟨_, _, script, heap, idle.secure.valid,
    idle.secure.live, run, hholds⟩
  have htyped : (Constant.function t constants).Typed :=
    .function hscript.listed fun k hk => (hcompiled k hk).typed
  obtain ⟨k, hholds', htyped', hlined'⟩ := holds_of_contains
    (Q := fun k => k.Typed ∧ k.Lined) hholds ⟨htyped, hlined⟩
    (fun _ _ h k hk => ⟨h.1.inner k hk, h.2.inner k hk⟩) contains
  obtain ⟨name, constants', rfl, -, hall⟩ := (Heap.holds_function_iff hf).mp hholds'
  cases htyped' with
  | function hlisted _ =>
      cases hlined' with
      | function hlines _ =>
          obtain ⟨-, -, L, own, -, hcode, -, -, hL⟩ := hlisted
          exact ⟨_, Heap.ruled_of_lined hall hcode.symm hL hlines⟩

/-- Traces name the right lines. In a compiled program all bytes of an instruction have one line.
And whichever instruction raises an error, at whatever point of the run, the trace has an entry for
each active call, innermost first and the script last, with the name of its function and the line of
the operation that it executes: the failing one for the innermost call, and the call that it waits
for for every other one. If the script cannot even be called, there is neither a call nor an entry.
-/
theorem runtime_trace (arises : Arises HostFunction.Conforms start)
    (compiles : compileSource source start = .ok (.ok script) compiled) :
    (∀ g f, compiled.heap.Contains script g → compiled.heap.object? g = some (.function f) →
      ∃ starts, compiled.heap.Ruled f.chunk starts) ∧
    (∀ e m', callScript script compiled = .error (.raised e) m' →
      compiled.frames = [] ∧ e.trace = []) ∧
    ∀ called steps paused budget e m', callScript script compiled = .ok () called →
      Machine.run steps called = .ok .running paused →
      Machine.run budget paused = .error (.raised e) m' →
      ∃ more m, more < budget ∧ Machine.run more paused = .ok .running m ∧
        Machine.step m = .error (.raised e) m' ∧ m.Traced script e.trace := by
  have idle := arises.idle
  rcases compile_total idle.secure.valid idle.secure.live (terminated_ofSource source) with
    ⟨result, heap, hok, hvalid, hkeeps, -⟩ | ⟨heap, herror, -⟩
  swap
  · cases compiles.symm.trans (compileSource_of_error herror)
  cases compiles.symm.trans (compileSource_of_ok hok)
  have hidle := idle.renew hkeeps hvalid
  refine ⟨fun g f hcontains hf => ruled_of_contains idle hok hcontains hf, fun e m' hfailed => ?_,
    fun called steps paused budget e m' hcall hrun hfailed => ?_⟩
  · exact ⟨idle.frames, callScript_traceless hidle e m' hfailed⟩
  · have hends := callScript_compiled idle hok
    rw [hcall] at hends
    obtain ⟨hready⟩ := hends
    obtain ⟨hready', hbottom⟩ := hready.runs_on hrun
    exact hready'.run_traced (hbottom.trans (callScript_bottom hidle hcall)) hfailed

/-- A program that fails in a call within a call. -/
def nestedSource : String :=
  "fun inner() { return 1 + nil; }\nfun outer() { return inner(); }\nouter();"

/-- The trace of the error that stops a source on a new machine. -/
def traceOf? (budget : Nat) (source : String) : Option (List TraceLine) :=
  match Session.begin {} (fun _ => 0) with
  | .error _ _ => none
  | .ok () start =>
    match compileSource source start with
    | .error _ _ => none
    | .ok (.error _) _ => none
    | .ok (.ok script) compiled =>
      match callScript script compiled with
      | .error _ _ => none
      | .ok () called =>
        match Machine.run budget called with
        | .ok _ _ => none
        | .error (.fault _) _ => none
        | .error (.raised e) _ => some e.trace

/-- The error in the inner call has a trace of three entries. -/
theorem runtime_trace_nested : ∃ start script compiled called e m',
    Arises HostFunction.Conforms start ∧
    compileSource nestedSource start = .ok (.ok script) compiled ∧
    callScript script compiled = .ok () called ∧
    Machine.run 20 called = .error (.raised e) m' ∧
    e.trace = [⟨some "inner", 1⟩, ⟨some "outer", 2⟩, ⟨none, 3⟩] ∧
    ∃ more m, more < 20 ∧ Machine.run more called = .ok .running m ∧
      Machine.step m = .error (.raised e) m' ∧ m.Traced script e.trace := by
  have traced : traceOf? 20 nestedSource =
      some [⟨some "inner", 1⟩, ⟨some "outer", 2⟩, ⟨none, 3⟩] := by decide +kernel
  unfold traceOf? at traced
  split at traced
  · cases traced
  rename_i start hbegin
  split at traced
  · cases traced
  · cases traced
  rename_i script compiled hcompile
  split at traced
  · cases traced
  rename_i called hcall
  split at traced
  · cases traced
  · cases traced
  rename_i e m' hrun
  have arises : Arises HostFunction.Conforms start := .begin hbegin
  exact ⟨start, script, compiled, called, e, m', arises, hcompile, hcall, hrun,
    Option.some.inj traced,
    (runtime_trace arises hcompile).2.2 called 0 called 20 e m' hcall rfl hrun⟩

end Lox.Session
