import Lox.Proofs.Machine.Abandoning
import Lox.Proofs.Session.Vacancy

/-!
# Runtime errors are atomic

An instruction that raises a runtime error leaves no other trace than the error itself. The
globals and the printout are those from before the instruction, and so is every object that the
globals keep alive; but a variable that still lived on the stack and was captured is moved off the
stack, with the value that it had before the instruction. The stack and the calls are gone.

The argument has two halves. An error is raised before the instruction has changed anything
(`Machine.step_early`), whatever the code. And while a compiled program runs, the open cells that
the machine knows are exactly the open cells of its heap, each under its own slot.

## Main definitions

* `Session.Underway` — the machines in the middle of a compiled program.
* `Session.Abandoned` — what a runtime error leaves behind.

## Main results

* `runtime_error_atomic` — every runtime error of every compiled program.
-/

namespace Lox.Session

variable {m m' : Machine} {admits : HostFunction → Prop} {e : RuntimeError}

/-- A machine that is in the middle of a compiled program: some instructions have been executed,
and the script has not ended. -/
inductive Underway (admits : HostFunction → Prop) (m : Machine) : Prop
  | intro {start compiled called : Machine} {source : String} {script : Handle} {steps : Nat} :
      Arises admits start → compileSource source start = .ok (.ok script) compiled →
        callScript script compiled = .ok () called →
          Machine.run steps called = .ok .running m → Underway admits m

/-- A machine in the middle of a compiled program is ready for the next instruction, and it knows
its open cells. -/
theorem Underway.ready (underway : Underway HostFunction.Conforms m) : m.Ready ∧ m.Tidy := by
  obtain ⟨arises, hcompile, hcall, hrun⟩ := underway
  rename_i start compiled called source script steps
  have idle := arises.idle
  have hlive : ∀ h ∈ start.rooted, start.heap.Live h := idle.secure.live
  have hterminated := terminated_ofSource source
  rcases compile_total idle.secure.valid hlive hterminated with
    ⟨result, heap, hok, hvalid, hkeeps, -⟩ | ⟨heap, herror, -⟩
  swap
  · cases hcompile.symm.trans (compileSource_of_error herror)
  cases hcompile.symm.trans (compileSource_of_ok hok)
  constructor
  · have hends := (callScript_compiled idle hok).bind fun _ _ hready => hready.run steps
    rw [bind_of_ok hcall, hrun] at hends
    cases hends with
    | ok hready => exact hready
  · have hvacant := arises.vacant.calm ((compile_evolves hok).calm arises.vacant.orderly)
    have hleaves := (callScript_leaves hvacant script).bind fun _ _ htidy =>
      Machine.run_tidies htidy steps
    rw [bind_of_ok hcall, hrun] at hleaves
    cases hleaves with
    | ok htidy => exact htidy

/-- What a runtime error makes of a machine. -/
structure Abandoned (m m' : Machine) : Prop where
  globals : m'.globals = m.globals
  printout : m'.printout = m.printout
  /-- Every open cell is closed with the value that its slot had. -/
  closed : ∀ h slot, m.heap.object? h = some (.cell (.opened slot)) →
    ∃ v, m.stack[slot]? = some v ∧ m'.heap.object? h = some (.cell (.closed v))
  /-- Every other object that the globals keep alive stays as it is. -/
  others : ∀ h o, Kept m h → m.heap.object? h = some o →
    (∀ slot, o ≠ .cell (.opened slot)) → m'.heap.object? h = some o
  stack : m'.stack = #[]
  frames : m'.frames = []
  openCells : m'.openCells = {}

/-- A runtime error is atomic. Whatever instruction of a compiled program raises it, at whatever
point of the run, the globals, the printout and all that the globals keep alive are what they
were before the instruction, and the captured variables have moved off the stack with the values
that they had. -/
theorem runtime_error_atomic (underway : Underway HostFunction.Conforms m)
    (raised : Machine.step m = .error (.raised e) m') : Abandoned m m' := by
  obtain ⟨⟨C, P, poised, -⟩, tidy⟩ := underway.ready
  obtain ⟨mid, cause, unspent, hraise⟩ := Machine.step_early tidy.orderly poised.room raised
  obtain ⟨hrest, hothers, hclosed⟩ := Machine.raise_closes hraise
  have hcells : mid.openCells = m.openCells := by rw [unspent.rest]
  rw [hcells] at hothers hclosed
  refine ⟨?_, ?_, fun h slot hcell => ?_, fun h o hkept ho hshut => ?_, by rw [hrest],
    by rw [hrest], by rw [hrest]⟩
  · rw [hrest, unspent.rest]
  · rw [hrest, unspent.rest]
  · have hmem := tidy.cells h slot hcell
    have hunique : ∀ other, (other, h) ∈ m.openCells.entries → other = slot := by
      intro other hother
      have hopened := poised.secure.opened (other, h) hother
      simpa [hcell, eq_comm] using hopened
    obtain ⟨v, hv, hobject⟩ := hclosed slot h hmem hunique
    rw [show mid.stack = m.stack by rw [unspent.rest]] at hv
    exact ⟨v, hv, hobject⟩
  · obtain ⟨g, ⟨name, v, hglobal, hg⟩, hreach⟩ := hkept
    have hroot : g ∈ m.rooted := Machine.mem_rooted.mpr (.inr (.inr (.inr ⟨name, v, hglobal, hg⟩)))
    have hkeep : mid.heap.object? h = some o := by
      refine unspent.keeps h o (hreach.mono fun f hf => ?_) ho
      exact List.mem_singleton.mp hf ▸ hroot
    rw [hothers h fun slot hslot => ?_, hkeep]
    have hopened := poised.secure.opened (slot, h) hslot
    exact hshut slot (Option.some.inj (ho.symm.trans hopened))

/-- A program that assigns an undefined global while a closure that a global holds has captured a
variable on the stack. -/
def abandonedSource : String :=
  "var g; fun f() { var x = 1; fun h() { return x; } g = h; x = 2; missing = x; } f();"

/-- Whether a new machine executes a count of instructions of a source, and the next one raises a
runtime error. -/
def raisesAfter (steps : Nat) (source : String) : Bool :=
  match Session.begin {} (fun _ => 0) with
  | .error _ _ => false
  | .ok () start =>
    match compileSource source start with
    | .error _ _ => false
    | .ok (.error _) _ => false
    | .ok (.ok script) compiled =>
      match callScript script compiled with
      | .error _ _ => false
      | .ok () called =>
        match Machine.run steps called with
        | .error _ _ => false
        | .ok .halted _ => false
        | .ok .running m =>
          match Machine.step m with
          | .ok _ _ => false
          | .error (.fault _) _ => false
          | .error (.raised _) _ => !m.openCells.entries.isEmpty

/-- Such a count leads to the middle of the program, where a captured variable lives on the
stack. -/
theorem underway_of_raisesAfter {steps : Nat} {source : String}
    (raised : raisesAfter steps source = true) :
    ∃ m e m', Underway HostFunction.Conforms m ∧ Machine.step m = .error (.raised e) m' ∧
      m.openCells.entries.isEmpty = false := by
  unfold raisesAfter at raised
  split at raised
  · cases raised
  rename_i start hbegin
  split at raised
  · cases raised
  · cases raised
  rename_i script compiled hcompile
  split at raised
  · cases raised
  rename_i called hcall
  split at raised
  · cases raised
  · cases raised
  rename_i m hrun
  split at raised
  · cases raised
  · cases raised
  rename_i e m' hstep
  exact ⟨m, e, m', .intro (.begin hbegin) hcompile hcall hrun, hstep, by simpa using raised⟩

/-- The program is stopped after fifteen instructions, while a captured variable lives on the
stack. -/
theorem runtime_error_atomic_missing : ∃ m e m', Underway HostFunction.Conforms m ∧
    Machine.step m = .error (.raised e) m' ∧ m.openCells.entries.isEmpty = false ∧
      Abandoned m m' := by
  have raised : raisesAfter 15 abandonedSource = true := by decide +kernel
  obtain ⟨m, e, m', underway, hstep, hopen⟩ := underway_of_raisesAfter raised
  exact ⟨m, e, m', underway, hstep, hopen, runtime_error_atomic underway hstep⟩

end Lox.Session
