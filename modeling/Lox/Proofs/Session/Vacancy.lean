import Lox.Proofs.Compile.Allocations
import Lox.Proofs.Machine.Tidy
import Lox.Proofs.Session.Safety

/-!
# Sessions that leave nothing behind

Between two sources a machine is vacant: its stacks are empty, it has no open cell, and its heap
holds none. So the globals are all that a collection keeps. Nothing is assumed of the functions of
the host, except that a host function that invents handles can make a collection fail.

## Main results

* `Arises.vacant` — after every history.
* `session_leaves_nothing` — after every source, whichever way it ends.
-/

namespace Lox

open Machine (Leaves Left)

/-- Interning strings and allocating functions is calm. -/
theorem Compiler.Evolution.calm {heap heap' : Heap} (evolution : Compiler.Evolution heap heap')
    (orderly : heap.Orderly) : heap.Calm (fun _ => False) heap' := by
  induction evolution with
  | refl => exact .refl orderly
  | tail _ huse ih =>
      refine ih.trans ?_
      cases huse with
      | intern hrun =>
          exact ((Heap.internedAs_of_ok ih.orderly hrun).calm ih.orderly).mono fun _ => False.elim
      | function hrun =>
          exact ((Heap.allocated_of_ok ih.orderly hrun).calm trivial).mono fun _ => False.elim

namespace Session

variable {m m' : Machine} {outcome : Outcome} {admits : HostFunction → Prop}

/-! ### Sources -/

/-- Starting a script on a vacant machine puts its call at the bottom of the stack. -/
theorem callScript_leaves (vacant : m.Vacant) (script : Handle) :
    Leaves (fun _ m' => m'.Tidy) (callScript script m) := by
  have hpush : ∀ {m : Machine} (v : Value), m.Tracked → m.stack = #[] → m.frames = [] →
      Leaves (fun _ m' => m'.Tracked ∧ m'.stack = #[v] ∧ m'.frames = []) (Machine.push v m) := by
    intro m v htracked hstack hframes
    by_cases hroom : m.stack.size < m.stackMax
    · rw [Machine.push_of_room hroom]
      exact .ok ⟨{ htracked with }, by simp [hstack], hframes⟩
    · rw [Machine.push, if_pos (Nat.not_lt.mp hroom)]
      exact Machine.raise_vacates htracked _
  unfold callScript
  refine (hpush _ vacant.tracked vacant.stack vacant.frames).bind ?_
  rintro _ m₁ ⟨htracked₁, hstack₁, hframes₁⟩
  refine Leaves.bind (show Leaves (fun _ m' => m'.Tracked ∧ m'.stack = m₁.stack ∧ m'.frames = []) _
    from ?_) ?_
  · unfold Machine.allocateClosure Machine.withRoots
    cases hrun : Heap.allocateClosure script
        (Machine.roots m₁.stack m₁.frames m₁.openCells m₁.globals) m₁.heap with
    | error => exact .fault
    | ok c heap =>
        obtain ⟨_, hallocate⟩ := Heap.allocate_of_allocateClosure hrun
        have hallocated := Heap.allocated_of_ok htracked₁.orderly hallocate
        exact .ok ⟨htracked₁.calm (hallocated.calm rfl) fun _ he => Machine.entry_mem_rooted he,
          rfl, hframes₁⟩
  rintro c m₂ ⟨htracked₂, hstack₂, hframes₂⟩
  rw [bind_of_ok (Machine.pop_apply m₂)]
  refine (hpush (m := { m₂ with stack := m₂.stack.pop }) (.object c) { htracked₂ with }
    (by simp [hstack₂, hstack₁]) hframes₂).bind ?_
  rintro _ m₃ ⟨htracked₃, hstack₃, hframes₃⟩
  unfold Machine.call
  rcases Machine.ask_cases (·.heap.closure c) m₃ with ⟨closure, -, hask⟩ | ⟨_, hask⟩
  swap
  · rw [bind_of_error hask]
    exact .fault
  rw [bind_of_ok hask]
  rcases Machine.ask_cases (·.heap.function closure.function) m₃ with ⟨f, -, hask⟩ | ⟨_, hask⟩
  swap
  · rw [bind_of_error hask]
    exact .fault
  rw [bind_of_ok hask, bind_of_ok (get_apply m₃)]
  split
  · exact Machine.raise_vacates htracked₃ _
  split
  · exact Machine.raise_vacates htracked₃ _
  split
  · exact .fault
  rw [modify_apply]
  exact .ok { htracked₃ with bottom := ⟨_, by rw [hframes₃]; rfl, by simp [hstack₃]⟩ }

/-- A source that has been run leaves a vacant machine. -/
theorem runSource_vacant (vacant : m.Vacant) {budget : Nat} {source : String}
    (run : runSource budget source m = .ok outcome m') (ended : outcome ≠ .paused) :
    m'.Vacant := by
  obtain ⟨result, mid, hcompile, hrest⟩ := bind_eq_ok_iff.mp run
  have hmid : mid.Vacant := by
    unfold compileSource at hcompile
    dsimp only at hcompile
    split at hcompile
    · rename_i hrun
      cases hcompile
      exact vacant.calm ((compile_evolves hrun).calm vacant.orderly)
    · cases hcompile
  cases result with
  | error ds =>
      cases hrest
      exact hmid
  | ok script =>
      have hleaves : Leaves Left ((do callScript script; Machine.run budget) mid) :=
        (callScript_leaves hmid script).bind fun _ _ htidy => Machine.run_tidies htidy budget
      simp only [runScript, attempt] at hrest
      revert hrest
      generalize (do callScript script; Machine.run budget : Action Status) mid = ending at hleaves
      intro hrest
      cases hleaves with
      | @ok status _ hleft =>
          cases status with
          | running =>
              cases hrest
              exact absurd rfl ended
          | halted =>
              cases hrest
              exact hleft
      | raised hvacant =>
          cases hrest
          exact hvacant
      | fault => cases hrest

/-- A source that has been interpreted leaves a vacant machine. -/
theorem interpret_vacant (vacant : m.Vacant) {budget : Nat} {source : String}
    (run : interpret budget source m = .ok outcome m') (ended : outcome ≠ .paused) :
    m'.Vacant := by
  obtain ⟨outcome', mid, hrun, hrest⟩ := bind_eq_ok_iff.mp run
  cases hrest
  exact { runSource_vacant vacant hrun ended with }

/-! ### Histories -/

/-- An operation of the heap that is calm leaves a vacant machine. -/
theorem withRoots_vacant {α : Type} {operation : List Handle → HeapM α} {a : α}
    (vacant : m.Vacant) (run : withRoots operation m = .ok a m')
    (calm : ∀ roots heap, operation roots m.heap = .ok a heap → m.heap.Calm (· ∈ roots) heap) :
    m' = { m with heap := m'.heap } ∧ m'.Vacant := by
  unfold withRoots at run
  split at run
  · rename_i hrun
    cases run
    exact ⟨rfl, vacant.calm (calm _ _ hrun)⟩
  · cases run

/-- Making a host function known leaves a vacant machine. -/
theorem bind_vacant (vacant : m.Vacant) {name : String} {host : HostFunction}
    (run : Session.bind name host m = .ok () m') : m'.Vacant := by
  obtain ⟨h, mid, hintern, hrest⟩ := bind_eq_ok_iff.mp run
  obtain ⟨-, hmid⟩ := withRoots_vacant vacant hintern fun _ _ hrun =>
    (Heap.internedAs_of_ok vacant.orderly hrun).calm vacant.orderly
  rw [bind_of_ok (modify_apply _ _)] at hrest
  obtain ⟨native, last, hallocate, hend⟩ := bind_eq_ok_iff.mp hrest
  unfold withRoots at hallocate
  split at hallocate
  · rename_i hrun
    cases hallocate
    cases hend
    have hcalm := (Heap.allocated_of_ok hmid.orderly hrun).calm trivial
    exact { hmid.calm hcalm with stack := by simp [hmid.stack] }
  · cases hallocate

/-- A new machine is vacant. -/
theorem vacant_of_begin {settings : Settings} {clock : Nat → Float}
    (run : Session.begin settings clock = .ok () m) : m.Vacant := by
  have hblank : (blank settings clock).Vacant :=
    ⟨rfl, rfl, rfl, (Heap.valid_empty _).toOrderly, rfl, by simp [blank, Heap.object?, Heap.empty],
      by simp [Heap.Wired, blank, Heap.object?, Heap.empty]⟩
  unfold Session.begin at run
  dsimp only at run
  split at run
  · cases run
  · exact bind_vacant hblank run

/-- Every history of a session leads to a vacant machine. -/
theorem Arises.vacant (arises : Arises admits m) : m.Vacant := by
  induction arises with
  | begin hrun => exact vacant_of_begin hrun
  | step _ hstep ih =>
      cases hstep with
      | bind _ hrun => exact bind_vacant ih hrun
      | runSource hrun hended => exact runSource_vacant ih hrun hended
      | interpret hrun hended => exact interpret_vacant ih hrun hended
      | collect hrun =>
          exact (withRoots_vacant ih hrun fun _ _ hrun =>
            (Heap.collected_of_ok ih.orderly hrun).calm).2
      | takeOutput hrun | takeDiagnostics hrun =>
          cases hrun
          exact { ih with }

/-! ### Collecting -/

/-- An object that the globals of a machine keep alive, through a name or through a value. -/
def Kept (m : Machine) (h : Handle) : Prop :=
  ∃ g, (∃ name v, m.globals[name]? = some v ∧ (g = name ∨ v = .object g)) ∧ m.heap.Reaches [g] h

/-- What a vacant machine reaches is what its globals keep. -/
theorem kept_iff (vacant : m.Vacant) (h : Handle) : Kept m h ↔ m.heap.Reaches m.rooted h := by
  rw [Kept, Heap.reaches_iff_exists]
  simp [Machine.mem_rooted, vacant.stack, vacant.frames, vacant.openCells]

/-- How a collection may end: it keeps exactly what the globals do, unless its threshold leaves
the machine word. -/
inductive CollectsAll (m : Machine) : Prop
  | ok {m' : Machine} : Session.collect m = .ok () m' → m'.globals = m.globals →
      (∀ h o, m'.heap.object? h = some o ↔ m.heap.object? h = some o ∧ Kept m h) → CollectsAll m
  | overflow {m' : Machine} : Session.collect m = .error .overflow m' →
      maxWord < m'.heap.bytes * m'.heap.policy.growth → CollectsAll m

/-- A collection of a vacant machine only fails in another way when the globals keep a handle
that the heap never gave. -/
theorem collectsAll_or_stray (vacant : m.Vacant) :
    CollectsAll m ∨ ∃ h, Kept m h ∧ ¬ m.heap.InRange h := by
  have hreaches : ∀ h, m.heap.Reaches (m.rooted ++ m.heap.gray) h ↔ Kept m h := fun h => by
    rw [vacant.gray, List.append_nil, kept_iff vacant]
  rcases Heap.collect_cases vacant.orderly m.rooted with
    ⟨heap, hrun, hcollected⟩ | ⟨heap, herror, hover⟩ | ⟨heap, herror, h, hreach, hfar⟩
  · refine .inl (.ok (withRoots_of_ok hrun) rfl fun h o => ?_)
    rw [← hreaches]
    exact hcollected.object?_iff h o
  · exact .inl (.overflow (withRoots_of_error herror) hover)
  · exact .inr ⟨h, (hreaches h).mp hreach, hfar⟩

/-- Histories may admit more host functions. -/
theorem Arises.mono {admits' : HostFunction → Prop} (arises : Arises admits m)
    (weaker : ∀ run, admits run → admits' run) : Arises admits' m := by
  induction arises with
  | begin hrun => exact .begin hrun
  | step _ hstep ih =>
      refine ih.step ?_
      cases hstep with
      | bind hadmits hrun => exact .bind (weaker _ hadmits) hrun
      | runSource hrun hended => exact .runSource hrun hended
      | interpret hrun hended => exact .interpret hrun hended
      | collect hrun => exact .collect hrun
      | takeOutput hrun => exact .takeOutput hrun
      | takeDiagnostics hrun => exact .takeDiagnostics hrun

/-- Every source leaves the machine idle, whether it ends, is rejected or raises a runtime error:
there is no value on the stack, no active call and no open cell, and no cell of the heap is open.
A collection that follows keeps exactly what the globals keep. It might meet a handle that the
heap never gave, but no host function that conforms makes one up. -/
theorem session_leaves_nothing (arises : Arises admits m) {budget : Nat} {source : String}
    (run : interpret budget source m = .ok outcome m' ∨ runSource budget source m = .ok outcome m')
    (ended : outcome ≠ .paused) :
    m'.stack = #[] ∧ m'.frames = [] ∧ m'.openCells.entries = [] ∧
      (∀ h slot, m'.heap.object? h ≠ some (.cell (.opened slot))) ∧
      (CollectsAll m' ∨ ∃ h, Kept m' h ∧ ¬ m'.heap.InRange h) ∧
      ((∀ run, admits run → HostFunction.Conforms run) → CollectsAll m') := by
  have arises' : Arises admits m' := by
    rcases run with run | run
    · exact arises.step (.interpret run ended)
    · exact arises.step (.runSource run ended)
  have vacant := arises'.vacant
  have hcollects := collectsAll_or_stray vacant
  refine ⟨vacant.stack, vacant.frames, by rw [vacant.openCells], vacant.shut, hcollects,
    fun hconforms => hcollects.resolve_right ?_⟩
  rintro ⟨h, hkept, hfar⟩
  have idle := (arises'.mono hconforms).idle
  exact hfar (idle.secure.live_of_reaches ((kept_iff vacant h).mp hkept)).inRange

/-- A program that fails in the middle of an expression, in a function that has a captured
variable on the stack. -/
def interruptedSource : String :=
  "fun f() { var x; fun g() { x = g; } g(); return !(x == -g); } f();"

/-- Whether a new machine stops a program with a runtime error. -/
def stops (source : String) : Bool :=
  match Session.begin {} (fun _ => 0) with
  | .ok () m =>
    match interpret 100 source m with
    | .ok (.failed _) _ => true
    | _ => false
  | .error _ _ => false

/-- The interrupted program leaves nothing behind. -/
theorem session_leaves_nothing_interrupted :
    ∃ m e m', Session.begin {} (fun _ => 0) = .ok () m ∧
      interpret 100 interruptedSource m = .ok (.failed e) m' ∧
      m'.stack = #[] ∧ m'.frames = [] ∧ m'.openCells.entries = [] ∧
        (∀ h slot, m'.heap.object? h ≠ some (.cell (.opened slot))) ∧
        (CollectsAll m' ∨ ∃ h, Kept m' h ∧ ¬ m'.heap.InRange h) ∧
        ((∀ run, HostFunction.Conforms run → HostFunction.Conforms run) → CollectsAll m') := by
  have stopped : stops interruptedSource = true := by decide +kernel
  unfold stops at stopped
  split at stopped
  · rename_i m hbegin
    split at stopped
    · rename_i e m' run
      have arises : Arises HostFunction.Conforms m := .begin hbegin
      exact ⟨m, e, m', hbegin, run,
        session_leaves_nothing arises (.inl run) (fun h => Outcome.noConfusion h)⟩
    · cases stopped
  · cases stopped

end Session

end Lox
