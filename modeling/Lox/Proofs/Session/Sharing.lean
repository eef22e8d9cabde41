import Lox.Proofs.Reference.Steps
import Lox.Proofs.Session.Twins

/-!
# Captured variables are shared

A machine and a reference machine are given the same sources and the same host functions. What is
printed, how each source ends and which globals there are is the same for both. So open and closed
cells implement shared variables: closures that capture the same activation of a variable, and the
call that it belongs to, always read each other's last assignment, and different activations have
nothing to do with each other.

The reference machine runs the function of a source, with all handles resolved. A source that is
rejected has none.

## Main definitions

* `Session.Shadows` — machines that have been given the same sources.
* `Session.Shares`, `Session.Accords` — machines with the same variables, and what a host sees of
  them.

## Main results

* `Shadows.mirrors` — machines that have been given the same sources mirror each other.
* `variables_shared` — the reference machine tells what a source does.
-/

namespace Lox

namespace Session

open Machine (Mirrors Mirroring Echoes Tracks)

variable {m n : Machine} {r s : Reference} {π : Picture} {h script : Handle} {t : Template}
  {constants : List Constant} {source : String}

/-! ### Running a source -/

/-- Something more that can be called makes no difference to what there is. -/
theorem mirrors_make (mirrors : Mirrors π m r) (k : Reference.Callable) :
    Mirrors π m { r with callables := r.callables.push k } := by
  refine mirrors.extend ⟨fun _ _ => id, fun _ _ => id⟩ mirrors.oneToOne (fun id k hk => ?_)
    (fun _ => id) (fun _ _ hid hold => absurd hid hold) (fun _ _ hcell hold => absurd hcell hold)
    (fun _ he hold => absurd he hold) mirrors.sorted
  have hlt := (Array.getElem?_eq_some_iff.mp hk).1
  rw [Array.getElem?_push, if_neg (by omega), hk]

/-- An operation that keeps some roots and more moves the machine under its own roots. -/
theorem mirrors_move (mirrors : Mirrors π m r) {roots : List Handle} {mid : Heap}
    (keeps : m.heap.Keeps roots mid) (subset : ∀ g ∈ m.rooted, g ∈ roots) (valid : mid.Valid) :
    Mirrors (π.reached m.heap m.rooted) { m with heap := mid } r :=
  mirrors.move (keeps.mono subset) valid fun e he =>
    Machine.mem_rooted.mpr (.inr (.inr (.inl ⟨e, he, rfl⟩)))

/-- A value on the stack is one more root. -/
theorem mem_rooted_push {g : Handle} {v : Value} :
    g ∈ Machine.rooted { m with stack := m.stack.push v } ↔ .object g = v ∨ g ∈ m.rooted := by
  simp only [Machine.mem_rooted, Array.toList_push, List.mem_append, List.mem_singleton]
  rw [or_assoc, or_left_comm]

/-- Starting a script. -/
theorem callScript_tracks (mirrors : Mirrors π m r)
    (holds : m.heap.Holds (.object script) (.function t constants)) :
    Echoes Tracks (callScript script m) (Reference.start t constants r) := by
  generalize hfunction : Constant.function t constants = constant at holds
  cases holds with
  | text => cases hfunction
  | @function _ f name constants' hf hname hsize hall =>
  cases hfunction
  have hholds : m.heap.Holds (.object script) (.function (f.template name) constants) :=
    .function hf hname hsize hall
  let k : Reference.Callable := .closure { template := f.template name, constants, captured := #[] }
  change Echoes Tracks _ ((do
    Reference.push (.callable r.callables.size)
    Reference.call r.callables.size 0 : Reference.Act Unit)
      { r with callables := r.callables.push k })
  rw [callScript]
  by_cases full : m.stackMax ≤ m.stack.size
  · refine Echoes.bind (R := fun _ _ _ _ => False) ?_ fun _ _ _ _ h => h.elim
    rw [Machine.push, if_pos full, Reference.push,
      if_pos (by rwa [mirrors.stackMax, mirrors.size])]
    exact Machine.raise_echoes (mirrors_make mirrors k) _
  rw [bind_of_ok (Machine.push_of_room (Nat.not_le.mp full))]
  -- the machine with the function on its stack
  let mid : Machine := { m with stack := m.stack.push (.object script) }
  have hsubset : ∀ g ∈ m.rooted, g ∈ mid.rooted := fun g hg => mem_rooted_push.mpr (.inr hg)
  have hlive : ∀ g ∈ mid.rooted, m.heap.Live g := fun g hg => by
    rcases mem_rooted_push.mp hg with heq | hmem
    · cases heq
      exact ⟨_, hf⟩
    · exact mirrors.live g hmem
  have hreach : m.heap.Reaches mid.rooted script := .root (mem_rooted_push.mpr (.inl rfl))
  cases hrun : Heap.allocateClosure script mid.rooted m.heap with
  | error e heap =>
      have herror : Machine.allocateClosure script mid = .error (.fault e) { mid with heap } := by
        simp only [Machine.allocateClosure, Machine.withRoots]
        rw [show Heap.allocateClosure script (Machine.roots mid.stack mid.frames mid.openCells
          mid.globals) mid.heap = _ from hrun]
      rw [bind_of_error herror]
      exact .fault
  | ok h heap =>
      have hok : Machine.allocateClosure script mid = .ok h { mid with heap } := by
        simp only [Machine.allocateClosure, Machine.withRoots]
        rw [show Heap.allocateClosure script (Machine.roots mid.stack mid.frames mid.openCells
          mid.globals) mid.heap = _ from hrun]
      obtain ⟨room, hrun⟩ := Heap.allocate_of_allocateClosure hrun
      have hmade := Heap.allocated_of_ok mirrors.valid.toOrderly hrun
      have hvalid := hmade.valid mirrors.valid (fun _ h => by cases h) hlive fun c hc => by
        obtain rfl : c = script := by simpa [Object.children] using hc
        exact hreach
      have hmoved := mirrors_move mirrors hmade.keeps hsubset hvalid
      have hadded := hmoved.addCallable (k := k) hmade.object?_self
        (.closure (hholds.later hmade.keeps fun g hg => by cases hg; exact hreach) .nil)
        fun id hid => by
          obtain ⟨o, -, ho, -⟩ := mirrors.callables h id hid.1
          exact hmade.fresh ⟨o, ho⟩ (hid.2.mono hsubset) rfl
      have hpop : Machine.pop { mid with heap } = .ok (.object script) { m with heap } := by
        simp [Machine.pop_apply, mid]
      rw [bind_of_ok hok, bind_of_ok hpop]
      refine (Machine.push_echoes hadded (.callable (.inr ⟨rfl, rfl⟩))).bind ?_
      rintro _ n _ s ⟨-, hn, -⟩
      exact Machine.call_tracks hn (.inr ⟨rfl, rfl⟩) 0

/-- How a source ends on both machines: in the same way, unless the machine is lost to a threshold
that leaves the machine word. -/
inductive Reflects : EStateM.Result Fault Machine Outcome →
    EStateM.Result Fault Reference Outcome → Prop
  | same {o : Outcome} {m : Machine} {r : Reference} {π : Picture} : Mirrors π m r →
      Reflects (.ok o m) (.ok o r)
  | lost {m : Machine} {other : EStateM.Result Fault Reference Outcome} : m.heap.Overfull →
      Reflects (.error .overflow m) other

/-- How a run of the reference machine ended. -/
def concluded : EStateM.Result Interruption Reference Status →
    EStateM.Result Fault Reference Outcome
  | .ok .halted r => .ok .finished r
  | .ok .running r => .ok .paused r
  | .error (.raised e) r => .ok (.failed e) r
  | .error (.fault f) r => .error f r

/-- A run that is echoed, and does not go wrong. -/
theorem attempt_reflects {action : Action Status} {y : EStateM.Result Interruption Reference Status}
    (ends : Ends Machine.Continues (action m)) (echoes : Echoes Tracks (action m) y) :
    Reflects (attempt action m) (concluded y) := by
  rw [attempt]
  generalize action m = x at ends echoes ⊢
  cases ends with
  | ok =>
      cases echoes with
      | @ok _ _ status _ h =>
          obtain ⟨rfl, π', hn⟩ := h
          cases status with
          | running => exact .same hn
          | halted => exact .same hn
  | raised hfair =>
      cases echoes with
      | raised hn => exact .same hn
      | broken hbroken => exact absurd hbroken hfair
  | lost hlost =>
      obtain ⟨rfl, hover⟩ := hlost
      exact .lost hover

/-- Running a function as a script. -/
theorem runScript_reflects (mirrors : Mirrors π m r)
    (holds : m.heap.Holds (.object script) (.function t constants))
    (starts : Ends (fun _ m' => m'.Ready) (callScript script m)) (budget : Nat) :
    Reflects (runScript budget script m) (Reference.runScript budget t constants r) := by
  have hechoes : Echoes Tracks ((do callScript script; Machine.run budget : Action Status) m)
      ((do Reference.start t constants; Reference.run budget : Reference.Act Status) r) := by
    refine ((callScript_tracks mirrors holds).conj starts).bind ?_
    rintro _ n _ s ⟨⟨-, π', hn⟩, hready⟩
    exact Machine.run_tracks hready hn budget
  have hreflects := attempt_reflects (starts.bind fun _ n hready => hready.run budget) hechoes
  rw [runScript, Reference.runScript]
  generalize (do Reference.start t constants; Reference.run budget : Reference.Act Status) r = y
    at hreflects ⊢
  rcases y with ⟨_ | _, s⟩ | ⟨_ | _, s⟩ <;> exact hreflects

/-! ### Sources -/

/-- A source is accepted, and the function that is made of it resolves to a template. -/
def Compiles (source : String) (m : Machine) (t : Template) (constants : List Constant) : Prop :=
  ∃ script n, compileSource source m = .ok (.ok script) n ∧
    n.heap.Holds (.object script) (.function t constants)

/-- A source is run, with or without a report, and ends with an outcome. -/
def Ran (budget : Nat) (source : String) (m : Machine) (o : Outcome) (n : Machine) : Prop :=
  runSource budget source m = .ok o n ∨ interpret budget source m = .ok o n

/-- A run leaves the same machine with or without a report, but for what has been reported. -/
theorem Ran.runSource {budget : Nat} {source : String} {o : Outcome}
    (ran : Ran budget source m o n) :
    ∃ k text, Session.runSource budget source m = .ok o k ∧ n = { k with diagnostics := text } := by
  rcases ran with hrun | hrun
  · exact ⟨n, n.diagnostics, hrun, rfl⟩
  · obtain ⟨o', k, hsource, hrecord⟩ := bind_eq_ok_iff.mp hrun
    cases hrecord
    exact ⟨k, _, hsource, rfl⟩

/-- A script that runs has not been rejected. -/
theorem attempt_ne_rejected {action : Action Status} {ds : List Diagnostic} :
    attempt action m ≠ .ok (.rejected ds) n := by
  intro h
  unfold attempt at h
  split at h <;> cases h

/-- A source that is rejected leaves a machine that mirrors the same reference machine. -/
theorem mirrors_of_rejected (idle : m.Idle) (mirrors : Mirrors π m r) {budget : Nat}
    {source : String} {ds : List Diagnostic} (ran : Ran budget source m (.rejected ds) n) :
    ∃ π', Mirrors π' n r := by
  obtain ⟨k, text, hrun, rfl⟩ := ran.runSource
  unfold Session.runSource at hrun
  rcases compile_total idle.secure.valid idle.secure.live (terminated_ofSource source) with
    ⟨result, heap, hcompile, hvalid, hkeeps, -⟩ | ⟨heap, herror, hover⟩
  · have hmoved := mirrors_move mirrors hkeeps (fun _ h => h) hvalid
    rw [bind_of_ok (compileSource_of_ok hcompile)] at hrun
    cases result with
    | error ds' =>
        cases hrun
        exact ⟨_, { hmoved with }⟩
    | ok script =>
        exact absurd hrun attempt_ne_rejected
  · rw [bind_of_error (compileSource_of_error herror)] at hrun
    cases hrun

/-- A source that is accepted has a function that resolves to a template. -/
theorem compiles_of_accepted (idle : m.Idle)
    (accepted : compileSource source m = .ok (.ok script) n) :
    ∃ t constants, Compiles source m t constants := by
  cases hcompile : compile (.ofSource source) m.rooted m.heap with
  | error f heap =>
      rw [compileSource_of_error hcompile] at accepted
      cases accepted
  | ok result heap =>
      rw [compileSource_of_ok hcompile] at accepted
      cases accepted
      obtain ⟨-, -, program, t, constants, -, hholds, -⟩ :=
        compile_sound (terminated_ofSource source) idle.secure.valid idle.secure.live hcompile
      exact ⟨t, constants, script, _, compileSource_of_ok hcompile, hholds⟩

/-- A source that is run is rejected or accepted. -/
theorem rejected_or_compiles (idle : m.Idle) {budget : Nat} {source : String} {o : Outcome}
    (ran : Ran budget source m o n) :
    (∃ ds, o = .rejected ds) ∨ ∃ t constants, Compiles source m t constants := by
  obtain ⟨k, text, hrun, -⟩ := ran.runSource
  unfold Session.runSource at hrun
  cases hsource : compileSource source m with
  | error f n' =>
      rw [bind_of_error hsource] at hrun
      cases hrun
  | ok result n' =>
      rw [bind_of_ok hsource] at hrun
      cases result with
      | error ds =>
          cases hrun
          exact .inl ⟨ds, rfl⟩
      | ok script => exact .inr (compiles_of_accepted idle hsource)

/-- The script of a source that is accepted is that of a program of the grammar. -/
theorem Compiles.encoded (compiles : Compiles source m t constants) (idle : m.Idle) :
    ∃ program, Grammar.Declarations (TokenStream.ofSource source).pending program ∧
      Encoding.Script program t constants := by
  obtain ⟨script, k, hsource, hholds⟩ := compiles
  cases hcompile : compile (.ofSource source) m.rooted m.heap with
  | error f heap =>
      rw [compileSource_of_error hcompile] at hsource
      cases hsource
  | ok result heap =>
      rw [compileSource_of_ok hcompile] at hsource
      cases hsource
      obtain ⟨-, -, program, t', constants', hgrammar, hholds', hscript, -⟩ :=
        compile_sound (terminated_ofSource source) idle.secure.valid idle.secure.live hcompile
      cases hholds.unique hholds'
      exact ⟨program, hgrammar, hscript⟩

/-- A source that is accepted is run like its script. -/
theorem Compiles.reflects (compiles : Compiles source m t constants) (idle : m.Idle)
    (mirrors : Mirrors π m r) (budget : Nat) :
    Reflects (Session.runSource budget source m) (Reference.runScript budget t constants r) := by
  obtain ⟨script, k, hsource, hholds⟩ := compiles
  rcases compile_total idle.secure.valid idle.secure.live (terminated_ofSource source) with
    ⟨result, heap, hcompile, hvalid, hkeeps, -⟩ | ⟨heap, herror, hover⟩
  · have hmoved := mirrors_move mirrors hkeeps (fun _ h => h) hvalid
    rw [compileSource_of_ok hcompile] at hsource
    cases hsource
    rw [Session.runSource, bind_of_ok (compileSource_of_ok hcompile)]
    exact runScript_reflects hmoved hholds (callScript_compiled idle hcompile) budget
  · rw [compileSource_of_error herror] at hsource
    cases hsource

/-- A source that is accepted ends in the same way on both machines. -/
theorem mirrors_of_accepted (idle : m.Idle) (mirrors : Mirrors π m r) {budget : Nat}
    {source : String} {o : Outcome} (compiles : Compiles source m t constants)
    (ran : Ran budget source m o n) :
    ∃ s π', Reference.runScript budget t constants r = .ok o s ∧ Mirrors π' n s := by
  obtain ⟨k, text, hrun, rfl⟩ := ran.runSource
  have hreflects := compiles.reflects idle mirrors budget
  rw [hrun] at hreflects
  generalize Reference.runScript budget t constants r = y at hreflects ⊢
  cases hreflects with
  | same hn => exact ⟨_, _, rfl, { hn with }⟩

/-! ### Host functions and new machines -/

/-- Making a host function known. -/
theorem mirrors_of_bind (mirrors : Mirrors π m r) {name : String} {run : HostFunction}
    (equivariant : run.Equivariant) (bound : Session.bind name run m = .ok () n) :
    ∃ π', Mirrors π' n (r.bind name run) := by
  unfold Session.bind at bound
  obtain ⟨h, m₁, hintern, bound⟩ := bind_eq_ok_iff.mp bound
  cases hrun : Heap.intern name m.rooted m.heap with
  | error f heap =>
      rw [withRoots_of_error hrun] at hintern
      cases hintern
  | ok h' heap =>
  rw [withRoots_of_ok hrun] at hintern
  cases hintern
  have hinterned := Heap.internedAs_of_ok mirrors.valid.toOrderly hrun
  have hmoved := mirrors_move mirrors hinterned.keeps (fun _ h => h) (hinterned.valid mirrors.valid)
  generalize π.reached m.heap m.rooted = π₁ at hmoved
  generalize hm₁ : ({ m with heap } : Machine) = m₁ at hmoved bound
  have hname : m₁.heap.object? h = some (.string name) := by
    rw [← hm₁]
    exact hinterned.object?_self
  rw [bind_of_ok (modify_apply _ _)] at bound
  obtain ⟨g, m₂, hallocate, bound⟩ := bind_eq_ok_iff.mp bound
  -- the machine with the name on its stack
  let mid : Machine := { m₁ with stack := m₁.stack.push (.object h) }
  have hsubset : ∀ g ∈ m₁.rooted, g ∈ mid.rooted := fun g hg => mem_rooted_push.mpr (.inr hg)
  have hlive : ∀ g ∈ mid.rooted, m₁.heap.Live g := fun g hg => by
    rcases mem_rooted_push.mp hg with heq | hmem
    · cases heq
      exact ⟨_, hname⟩
    · exact hmoved.live g hmem
  cases hrun' : Heap.allocate (.native { name, run }) mid.rooted mid.heap with
  | error f heap' =>
      rw [withRoots_of_error (m := mid) hrun'] at hallocate
      cases hallocate
  | ok g' heap' =>
  rw [withRoots_of_ok (m := mid) hrun'] at hallocate
  cases hallocate
  cases bound
  have hmade := Heap.allocated_of_ok hmoved.valid.toOrderly hrun'
  have hvalid := hmade.valid hmoved.valid (fun _ h => by cases h) hlive (by simp [Object.children])
  have hplaced := (mirrors_move hmoved hmade.keeps hsubset hvalid).addCallable
    (k := .native { name, run }) hmade.object?_self (.native equivariant) fun id hid => by
      obtain ⟨o, -, ho, -⟩ := hmoved.callables g id hid.1
      exact hmade.fresh ⟨o, ho⟩ (hid.2.mono hsubset) rfl
  have hkept := hmade.keeps _ _ (.root (mem_rooted_push.mpr (.inl rfl))) hname
  have hset := hplaced.setGlobal (v := .object g) hkept (.callable (.inr ⟨rfl, rfl⟩))
  have hstack : mid.stack.pop = m₁.stack := Array.pop_push
  refine ⟨(π₁.reached m₁.heap m₁.rooted).addCallable g r.callables.size, ?_⟩
  simp only [hstack]
  exact hset

/-- A new machine mirrors a new reference machine. -/
theorem mirrors_of_begin {settings : Settings} {clock : Nat → Float}
    (run : Session.begin settings clock = .ok () m) : ∃ π, Mirrors π m (.new settings clock) := by
  have hblank : Mirrors ⟨fun _ _ => False, fun _ _ => False⟩ (blank settings clock)
      { printout := { capacity := settings.outputCapacity }
        stackMax := settings.stackMax, clock } :=
    { valid := Heap.valid_empty _
      oneToOne := ⟨by simp, by simp, by simp, by simp⟩
      callables := by simp, cells := by simp
      opened := by simp [blank], sorted := by simp [blank]
      stack := .nil, nodup := List.nodup_nil, frames := .nil
      globals_right := by simp [blank], globals_left := by simp
      printout := rfl, stackMax := rfl, clock := rfl, hostCalls := rfl }
  have hclock : HostFunction.Equivariant clockFunction := fun _ _ reading _ _ _ => .number reading
  unfold Session.begin at run
  dsimp only at run
  split at run
  · cases run
  · exact mirrors_of_bind hblank hclock run

/-! ### Histories -/

/-- A machine and a reference machine that have been given the same sources and the same host
functions. The reference machine is not given a source that is rejected. -/
inductive Shadows : Machine → Reference → Prop
  | begin {settings : Settings} {clock : Nat → Float} {m : Machine} :
      Session.begin settings clock = .ok () m → Shadows m (.new settings clock)
  | bind {m n : Machine} {r : Reference} {name : String} {run : HostFunction} : Shadows m r →
      run.Equivariant → Session.bind name run m = .ok () n → Shadows n (r.bind name run)
  | accepted {m n : Machine} {r s : Reference} {budget : Nat} {source : String} {t : Template}
      {constants : List Constant} {o o' : Outcome} : Shadows m r →
      Compiles source m t constants → Ran budget source m o n → o ≠ .paused →
      Reference.runScript budget t constants r = .ok o' s → Shadows n s
  | rejected {m n : Machine} {r : Reference} {budget : Nat} {source : String}
      {ds : List Diagnostic} : Shadows m r → Ran budget source m (.rejected ds) n → Shadows n r
  | collect {m n : Machine} {r : Reference} : Shadows m r → Session.collect m = .ok () n →
      Shadows n r
  | takeOutput {m n : Machine} {r : Reference} {text : String} : Shadows m r →
      Session.takeOutput m = .ok text n → Shadows n { r with printout := r.printout.taken }
  | takeDiagnostics {m n : Machine} {r : Reference} {text : String} : Shadows m r →
      Session.takeDiagnostics m = .ok text n → Shadows n r

/-- A machine that has been run has a history. -/
theorem Arises.ran {budget : Nat} {source : String} {o : Outcome}
    (arises : Arises HostFunction.Conforms m) (ran : Ran budget source m o n)
    (ended : o ≠ .paused) :
    Arises HostFunction.Conforms n :=
  ran.elim (fun run => arises.step (.runSource run ended)) fun run =>
    arises.step (.interpret run ended)

/-- Machines that have been given the same sources mirror each other. -/
theorem Shadows.mirrors (shadows : Shadows m r) :
    (∃ π, Mirrors π m r) ∧ Arises HostFunction.Conforms m := by
  induction shadows with
  | begin hrun => exact ⟨mirrors_of_begin hrun, .begin hrun⟩
  | bind _ hequivariant hrun ih =>
      obtain ⟨⟨π, hm⟩, harises⟩ := ih
      exact ⟨mirrors_of_bind hm hequivariant hrun, harises.step (.bind hequivariant.conforms hrun)⟩
  | accepted _ hcompiles hran hended hrun ih =>
      obtain ⟨⟨π, hm⟩, harises⟩ := ih
      obtain ⟨s, π', hrun', hn⟩ := mirrors_of_accepted harises.idle hm hcompiles hran
      cases hrun.symm.trans hrun'
      exact ⟨⟨π', hn⟩, harises.ran hran hended⟩
  | rejected _ hran ih =>
      obtain ⟨⟨π, hm⟩, harises⟩ := ih
      exact ⟨mirrors_of_rejected harises.idle hm hran, harises.ran hran (by simp)⟩
  | @collect m _ _ _ hrun ih =>
      obtain ⟨⟨π, hm⟩, harises⟩ := ih
      refine ⟨?_, harises.step (.collect hrun)⟩
      cases hcollect : Heap.collect m.rooted m.heap with
      | error f heap =>
          rw [Session.collect, withRoots_of_error hcollect] at hrun
          cases hrun
      | ok _ heap =>
          rw [Session.collect, withRoots_of_ok hcollect] at hrun
          cases hrun
          have hcollected := Heap.collected_of_ok hm.valid.toOrderly hcollect
          exact ⟨_, mirrors_move hm (fun g o hg ho => hcollected.pruned.kept g o ho hg)
            (fun _ h => h) (hcollected.valid hm.valid)⟩
  | takeOutput _ hrun ih =>
      obtain ⟨⟨π, hm⟩, harises⟩ := ih
      refine ⟨⟨π, ?_⟩, harises.step (.takeOutput hrun)⟩
      cases hrun
      exact { hm with printout := congrArg Printout.taken hm.printout }
  | takeDiagnostics _ hrun ih =>
      obtain ⟨⟨π, hm⟩, harises⟩ := ih
      refine ⟨⟨π, ?_⟩, harises.step (.takeDiagnostics hrun)⟩
      cases hrun
      exact { hm with }

/-! ### What a host can see -/

/-- What the machine may come upon: strings, functions, callables that have a number and cells that
have a location. -/
inductive Known (heap : Heap) (π : Picture) (h : Handle) : Prop
  | string {text : String} : heap.object? h = some (.string text) → Known heap π h
  | function {t : Template} {constants : List Constant} :
      heap.Holds (.object h) (.function t constants) → Known heap π h
  | callable {id : Nat} : π.callable h id → Known heap π h
  | cell {ℓ : Nat} : π.cell h ℓ → Known heap π h

/-- A value that denotes something is known. -/
theorem known_of_denotes {heap : Heap} {d : Datum} (denotes : Denotes heap π (.object h) d) :
    Known heap π h := by
  cases denotes with
  | text hs => exact .string hs
  | callable hc => exact .callable hc

/-- A constant is known. -/
theorem known_of_holds {heap : Heap} {k : Constant} (holds : heap.Holds (.object h) k) :
    Known heap π h := by
  cases k with
  | number => cases holds
  | text => cases holds with | text hs => exact .string hs
  | function t constants => exact .function holds

/-- Everything that the machine can reach is known. -/
theorem known_of_reaches (mirrors : Mirrors π m r) (reaches : m.heap.Reaches m.rooted h) :
    Known m.heap π h := by
  refine reaches.induct (fun g hg => ?_) fun g o hg ho c hc => ?_
  · rcases Machine.mem_rooted.mp hg with hmem | ⟨fr, hfr, rfl⟩ | ⟨e, he, rfl⟩ | ⟨name, v, hv, hg⟩
    · obtain ⟨ℓ, -, d, -, hdenotes⟩ := exists_of_forall₂ mirrors.stack.flip hmem
      exact known_of_denotes hdenotes
    · obtain ⟨a, -, hframe⟩ := exists_of_forall₂ mirrors.frames.flip hfr
      exact .callable hframe.callee
    · obtain ⟨-, ℓ, -, hcell⟩ := mirrors.opened e he
      exact .cell hcell
    · obtain ⟨text, d, hname, -, hdenotes⟩ := mirrors.globals_right name v hv
      rcases hg with rfl | rfl
      · exact .string hname
      · exact known_of_denotes hdenotes
  · cases hg with
    | string hs =>
        obtain rfl := Option.some.inj (ho.symm.trans hs)
        cases hc
    | function hholds =>
        cases hholds with
        | @function _ f name constants hf hname hsize hall =>
            obtain rfl := Option.some.inj (ho.symm.trans hf)
            rcases List.mem_append.mp hc with hmem | hmem
            · cases hn : f.name with
              | none =>
                  rw [hn] at hmem
                  cases hmem
              | some other =>
                  rw [hn] at hmem hname
                  obtain rfl : c = other := by simpa using hmem
                  cases name with
                  | none => exact hname.elim
                  | some text => exact .string hname
            · obtain ⟨k, -, hk⟩ := exists_of_forall₂ (Heap.holdsAll_iff.mpr ⟨hsize, hall⟩).flip hmem
              exact known_of_holds hk
    | callable hid =>
        obtain ⟨o', k, ho', -, hembodies⟩ := mirrors.callables g _ hid
        obtain rfl := Option.some.inj (ho.symm.trans ho')
        cases hembodies with
        | native => cases hc
        | closure hholds hcells =>
            rcases List.mem_cons.mp hc with heq | hmem
            · cases heq
              exact known_of_holds hholds
            · obtain ⟨cell, hcell, heq⟩ := List.mem_map.mp hmem
              cases heq
              obtain ⟨ℓ, -, hℓ⟩ := exists_of_forall₂ hcells.flip hcell
              exact .cell hℓ
    | cell hℓ =>
        cases mirrors.cells g _ hℓ with
        | opened ho' =>
            obtain rfl := Option.some.inj (ho.symm.trans ho')
            cases hc
        | closed ho' _ hdenotes =>
            obtain rfl := Option.some.inj (ho.symm.trans ho')
            obtain rfl := List.mem_singleton.mp hc
            exact known_of_denotes hdenotes

/-- A machine and a reference machine with the same variables. Handles are paired one to one with
callables and with locations. A closure has captured the cells that are paired with the locations
that its counterpart has captured; a cell reads what its location holds, and so does a stack slot;
and a cell is open for a slot just when its location is the location of the slot. -/
structure Shares (m : Machine) (π : Picture) (r : Reference) : Prop where
  oneToOne : π.OneToOne
  closures : ∀ h c, m.heap.Reaches m.rooted h → m.heap.object? h = some (.closure c) →
    ∃ id k, π.callable h id ∧ r.closure? id = some k ∧
      m.heap.Holds (.object c.function) (.function k.template k.constants) ∧
      List.Forall₂ π.cell c.cells.toList k.captured.toList
  cells : ∀ h ℓ, π.cell h ℓ → ∃ v d, Machine.readCell h m = .ok v m ∧ r.store[ℓ]? = some d ∧
    Denotes m.heap π v d
  slots : ∀ i : Nat, Option.Rel (fun v ℓ => ∃ d, r.store[ℓ]? = some d ∧ Denotes m.heap π v d)
    m.stack[i]? r.stack[i]?
  own : ∀ h ℓ (i : Nat), π.cell h ℓ →
    (r.stack[i]? = some ℓ ↔ m.heap.object? h = some (.cell (.opened i)))
  distinct : r.stack.toList.Nodup
  globals : ∀ name, Option.Rel (Denotes m.heap π) (global? m name) (r.globals name)

/-- What a host sees of a machine and of a reference machine: they have printed the same, the same
globals are defined and have the same texts, and they have the same variables. -/
structure Accords (m : Machine) (r : Reference) : Prop where
  printout : r.printout = m.printout
  shown : ∀ name, Option.Rel (fun answer d => ∃ text, answer = .ok text ∧ r.display d = some text)
    (shown m name) (r.globals name)
  shares : ∃ π, Shares m π r

/-- The globals of a name, as a host finds them. -/
theorem global?_rel (mirrors : Mirrors π m r) (name : String) :
    Option.Rel (Denotes m.heap π) (global? m name) (r.globals name) := by
  cases hv : global? m name with
  | some v =>
      obtain ⟨g, hg, hglobal⟩ := (global?_eq_some_iff mirrors.valid.toInterned).mp hv
      have hrel := mirrors.global hg
      rwa [hglobal] at hrel
  | none =>
      cases hd : r.globals name with
      | none => exact .none
      | some d =>
          obtain ⟨g, v, hg, hglobal, -⟩ := mirrors.globals_left name d hd
          rw [(global?_eq_some_iff mirrors.valid.toInterned).mpr ⟨g, hg, hglobal⟩] at hv
          cases hv

/-- A machine that mirrors a reference machine has the same variables. -/
theorem shares_of_mirrors (mirrors : Mirrors π m r) : Shares m π r := by
  refine ⟨mirrors.oneToOne, fun h c hreach hc => ?_, fun h ℓ hcell => ?_, mirrors.slot,
    fun h ℓ i hcell => ?_, mirrors.nodup, global?_rel mirrors⟩
  · cases known_of_reaches mirrors hreach with
    | string hs => cases hc.symm.trans hs
    | function hholds => cases hholds with | function hf => cases hc.symm.trans hf
    | callable hid =>
        obtain ⟨k, hk⟩ := mirrors.closure hid hc
        exact ⟨_, k, hid, hk⟩
    | cell hℓ =>
        cases mirrors.cells h _ hℓ with
        | opened ho => cases hc.symm.trans ho
        | closed ho => cases hc.symm.trans ho
  · cases mirrors.cells h ℓ hcell with
    | opened ho hslot =>
        obtain ⟨v, d, hv, hd, hdenotes⟩ := mirrors.stored hslot
        refine ⟨v, d, ?_, hd, hdenotes⟩
        rw [Machine.readCell, bind_of_ok (Machine.ask_of_ok (Heap.cell_eq_ok_iff.mpr ho))]
        simp only [Machine.slotValue]
        rw [bind_of_ok (get_apply m), hv]
        rfl
    | closed ho hd hdenotes =>
        refine ⟨_, _, ?_, hd, hdenotes⟩
        rw [Machine.readCell, bind_of_ok (Machine.ask_of_ok (Heap.cell_eq_ok_iff.mpr ho))]
        rfl
  · cases mirrors.cells h ℓ hcell with
    | opened ho hslot =>
        constructor
        · intro hi
          rw [ho, mirrors.slot_inj hslot hi]
        · intro ho'
          cases ho.symm.trans ho'
          exact hslot
    | closed ho _ _ hoff =>
        constructor
        · intro hi
          refine absurd hi (hoff i ?_)
          rw [← mirrors.size]
          exact (Array.getElem?_eq_some_iff.mp hi).1
        · intro ho'
          cases ho.symm.trans ho'

/-- A machine that mirrors a reference machine accords with it. -/
theorem accords_of_mirrors (mirrors : Mirrors π m r) : Accords m r := by
  refine ⟨mirrors.printout, fun name => ?_, π, shares_of_mirrors mirrors⟩
  have hrel := global?_rel mirrors name
  unfold Session.shown
  generalize global? m name = o at hrel ⊢
  generalize r.globals name = o' at hrel ⊢
  cases hrel with
  | none => exact .none
  | some hdenotes =>
      exact .some (mirrors.display hdenotes)

/-- Open and closed cells implement shared variables. A machine and a reference machine that have
been given the same sources accord. A further source is rejected, and leaves the machine in accord
with the same reference machine; or it is accepted, ends in the same way on both machines, whatever
its budget, and leaves them in accord. -/
theorem variables_shared (shadows : Shadows m r) : Accords m r ∧ ∀ budget source o n,
    Ran budget source m o n → (∃ ds, o = .rejected ds ∧ Accords n r) ∨
      ∃ t constants s, Compiles source m t constants ∧
        Reference.runScript budget t constants r = .ok o s ∧ Accords n s := by
  obtain ⟨⟨π, hm⟩, harises⟩ := shadows.mirrors
  refine ⟨accords_of_mirrors hm, fun budget source o n hran => ?_⟩
  rcases rejected_or_compiles harises.idle hran with ⟨ds, rfl⟩ | ⟨t, constants, hcompiles⟩
  · obtain ⟨π', hn⟩ := mirrors_of_rejected harises.idle hm hran
    exact .inl ⟨ds, rfl, accords_of_mirrors hn⟩
  · obtain ⟨s, π', hrun, hn⟩ := mirrors_of_accepted harises.idle hm hcompiles hran
    exact .inr ⟨t, constants, s, hcompiles, hrun, accords_of_mirrors hn⟩

/-- A program with two closures that share a variable, and the variable of a second call. -/
def sharingSource : String :=
  "var y = \"y\"; " ++
    "fun pair(a) " ++
    "{ fun get() { return a; } fun put(b) { a = a + b; } put(y); print a; return get; } " ++
    "var f = pair(\"x\"); var g = pair(\"z\"); print f();"

/-- Whether a new machine runs the program to its end and has printed a text then. -/
def sharesIn (budget : Nat) (text : String) : Bool :=
  match Session.begin {} (fun _ => 0) with
  | .ok () m =>
    match interpret budget sharingSource m with
    | .ok .finished n => n.printout.text == text
    | _ => false
  | .error _ _ => false

/-- The program runs to its end on the reference machine, and prints what two variables of their
own make it print. -/
theorem variables_shared_pair : ∃ m n t constants s, Shadows m (.new {} fun _ => 0) ∧
    Compiles sharingSource m t constants ∧
    Reference.runScript 100 t constants (.new {} fun _ => 0) = .ok .finished s ∧ Accords n s ∧
    n.printout.text = "xy\nzy\nxy\n" := by
  have hshares : sharesIn 100 "xy\nzy\nxy\n" = true := by decide +kernel
  unfold sharesIn at hshares
  split at hshares
  · rename_i m hbegin
    split at hshares
    · rename_i n hrun
      have shadows : Shadows m (.new {} fun _ => 0) := .begin hbegin
      rcases (variables_shared shadows).2 100 sharingSource .finished n (.inr hrun) with
        ⟨ds, heq, -⟩ | ⟨t, constants, s, hcompiles, hreference, haccords⟩
      · cases heq
      · exact ⟨m, n, t, constants, s, shadows, hcompiles, hreference,
          haccords, beq_iff_eq.mp hshares⟩
    · cases hshares
  · cases hshares

end Session

end Lox
