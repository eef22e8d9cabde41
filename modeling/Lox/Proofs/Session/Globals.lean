import Lox.Proofs.Machine.Naming
import Lox.Proofs.Session.Atomicity

/-!
# Globals are a map on names

The host makes functions known, and programs define and assign globals. A *chronicle* is the log
of all these stores, each with its name and its value, over the whole history of a machine. Under
each name the host finds the value that the log has last for it, and nothing if the log has none;
and an instruction that reads or assigns a global fails exactly if the log has none. What was
collected in between, and which slots of the arena were used again, plays no part.

## Main definitions

* `Session.Binds` — a host function that is made known, with the handle of the new object.
* `Session.sourceWrites` — what the program of a source stores.
* `Session.Chronicle`, `Session.Amid` — the log after a history, and in the middle of a program.

## Main results

* `Arises.chronicle`, `Underway.amid` — every machine of a history has a log.
* `globals_are_latest` — the globals are what the log says.
-/

namespace Lox.Session

open Machine (Ended NamesStay Named lasting_namesStay)

variable {m m' : Machine} {admits : HostFunction → Prop} {log : List (String × Value)}

/-! ### Logs of histories -/

/-- A host function has been made known under a name, and the object that was allocated for it,
while its name was on the stack, has a given handle. -/
structure Binds (name : String) (run : HostFunction) (m : Machine) (native : Handle)
    (m' : Machine) : Prop where
  ran : Session.bind name run m = .ok () m'
  allocated : ∃ text heap, Heap.intern name m.rooted m.heap = .ok text heap ∧
    Heap.allocate (.native { name, run })
      ({ m with stack := m.stack.push (.object text) } : Machine).rooted heap = .ok native m'.heap

/-- All that the program of a source stores, in order. -/
def sourceWrites (budget : Nat) (source : String) (m : Machine) : List (String × Value) :=
  match compileSource source m with
  | .ok (.ok script) compiled =>
    match callScript script compiled with
    | .ok () called => called.writes budget
    | .error _ _ => []
  | _ => []

/-- What one call of the host stores, and the machine that it leaves. -/
inductive Records (admits : HostFunction → Prop) (m : Machine) :
    List (String × Value) → Machine → Prop
  | bind {name : String} {run : HostFunction} {native : Handle} {m' : Machine} : admits run →
      Binds name run m native m' → Records admits m [(name, .object native)] m'
  | runSource {budget : Nat} {source : String} {outcome : Outcome} {m' : Machine} :
      Session.runSource budget source m = .ok outcome m' → outcome ≠ .paused →
        Records admits m (sourceWrites budget source m) m'
  | interpret {budget : Nat} {source : String} {outcome : Outcome} {m' : Machine} :
      Session.interpret budget source m = .ok outcome m' → outcome ≠ .paused →
        Records admits m (sourceWrites budget source m) m'
  | collect {m' : Machine} : Session.collect m = .ok () m' → Records admits m [] m'
  | takeOutput {text : String} {m' : Machine} : Session.takeOutput m = .ok text m' →
      Records admits m [] m'
  | takeDiagnostics {text : String} {m' : Machine} : Session.takeDiagnostics m = .ok text m' →
      Records admits m [] m'

/-- The log of a history: what was stored under which name, in order. A new machine has stored
its clock. -/
inductive Chronicle (admits : HostFunction → Prop) : List (String × Value) → Machine → Prop
  | begin {settings : Settings} {clock : Nat → Float} {native : Handle} {m : Machine} :
      Session.begin settings clock = .ok () m →
        Binds "clock" clockFunction (blank settings clock) native m →
          Chronicle admits [("clock", .object native)] m
  | step {log stored : List (String × Value)} {m m' : Machine} : Chronicle admits log m →
      Records admits m stored m' → Chronicle admits (log ++ stored) m'

/-- The log in the middle of a program: that of the history before, and what the program has
stored so far. -/
inductive Amid (admits : HostFunction → Prop) : List (String × Value) → Machine → Prop
  | intro {start compiled called m : Machine} {before : List (String × Value)} {source : String}
      {script : Handle} {steps : Nat} : Chronicle admits before start →
        compileSource source start = .ok (.ok script) compiled →
          callScript script compiled = .ok () called →
            Machine.run steps called = .ok .running m →
              Amid admits (before ++ called.writes steps) m

/-! ### Every history has a log -/

/-- An operation of the heap changes nothing but the heap. -/
theorem withRoots_eq_ok {α : Type} {operation : List Handle → HeapM α} {a : α}
    (run : withRoots operation m = .ok a m') :
    ∃ heap, operation m.rooted m.heap = .ok a heap ∧ m' = { m with heap } := by
  unfold withRoots at run
  split at run
  · rename_i hoperation
    cases run
    exact ⟨_, hoperation, rfl⟩
  · cases run

/-- Making a host function known interns its name and allocates its object. -/
theorem bind_ran {name : String} {run : HostFunction}
    (hrun : Session.bind name run m = .ok () m') : ∃ text heap native heap',
      Heap.intern name m.rooted m.heap = .ok text heap ∧
      Heap.allocate (.native { name, run })
        ({ m with stack := m.stack.push (.object text) } : Machine).rooted heap =
          .ok native heap' ∧
      m' = { m with heap := heap', globals := m.globals.insert text (.object native) } := by
  obtain ⟨text, mid, hintern, hrest⟩ := bind_eq_ok_iff.mp hrun
  obtain ⟨heap, hheap, rfl⟩ := withRoots_eq_ok hintern
  rw [bind_of_ok (modify_apply _ _)] at hrest
  obtain ⟨native, last, hallocate, hend⟩ := bind_eq_ok_iff.mp hrest
  obtain ⟨heap', hheap', rfl⟩ := withRoots_eq_ok hallocate
  cases hend
  exact ⟨text, heap, native, heap', hheap, hheap', by simp⟩

/-- A host function that has been made known has a handle. -/
theorem exists_binds {name : String} {run : HostFunction}
    (hrun : Session.bind name run m = .ok () m') : ∃ native, Binds name run m native m' := by
  obtain ⟨text, heap, native, heap', hintern, hallocate, rfl⟩ := bind_ran hrun
  exact ⟨native, hrun, text, heap, hintern, hallocate⟩

/-- Every call of the host stores something, or nothing. -/
theorem Step.records (step : Step admits m m') : ∃ stored, Records admits m stored m' := by
  cases step with
  | bind hadmits hrun =>
      obtain ⟨native, hnative⟩ := exists_binds hrun
      exact ⟨_, .bind hadmits hnative⟩
  | runSource hrun hended => exact ⟨_, .runSource hrun hended⟩
  | interpret hrun hended => exact ⟨_, .interpret hrun hended⟩
  | collect hrun => exact ⟨_, .collect hrun⟩
  | takeOutput hrun => exact ⟨_, .takeOutput hrun⟩
  | takeDiagnostics hrun => exact ⟨_, .takeDiagnostics hrun⟩

/-- What a call of the host stores is stored by a step of a history. -/
theorem Records.step {stored : List (String × Value)} (records : Records admits m stored m') :
    Step admits m m' := by
  cases records with
  | bind hadmits hbinds => exact .bind hadmits hbinds.ran
  | runSource hrun hended => exact .runSource hrun hended
  | interpret hrun hended => exact .interpret hrun hended
  | collect hrun => exact .collect hrun
  | takeOutput hrun => exact .takeOutput hrun
  | takeDiagnostics hrun => exact .takeDiagnostics hrun

/-- Every history has a log. -/
theorem Arises.chronicle (arises : Arises admits m) : ∃ log, Chronicle admits log m := by
  induction arises with
  | begin hrun =>
      have hbind := hrun
      unfold Session.begin at hbind
      dsimp only at hbind
      split at hbind
      · cases hbind
      · obtain ⟨native, hnative⟩ := exists_binds hbind
        exact ⟨_, .begin hrun hnative⟩
  | step _ hstep ih =>
      obtain ⟨log, hlog⟩ := ih
      obtain ⟨stored, hstored⟩ := hstep.records
      exact ⟨_, hlog.step hstored⟩

/-- A log belongs to a history. -/
theorem Chronicle.arises (chronicle : Chronicle admits log m) : Arises admits m := by
  induction chronicle with
  | begin hrun => exact .begin hrun
  | step _ hrecords ih => exact ih.step hrecords.step

/-- Every program has a log at each of its instructions. -/
theorem Underway.amid (underway : Underway admits m) : ∃ log, Amid admits log m := by
  obtain ⟨harises, hcompile, hcall, hrun⟩ := underway
  obtain ⟨before, hbefore⟩ := harises.chronicle
  exact ⟨_, .intro hbefore hcompile hcall hrun⟩

/-! ### What the calls of the host do to the globals -/

/-- The globals of a machine, and those of a later one in which something has been stored. -/
structure Stored (m : Machine) (stored : List (String × Value)) (m' : Machine) : Prop where
  named : m'.Named
  global?_eq : ∀ name, global? m' name = (latest? stored name).or (global? m name)

/-- Where names stay, nothing is stored. -/
theorem Stored.of_stay (stay : NamesStay m m') (named : m.Named) (valid : m.heap.Valid)
    (valid' : m'.heap.Valid) : Stored m [] m' := by
  obtain ⟨hnamed, hglobals⟩ := stay.global? named valid.toOrderly valid.toInterned valid'.toInterned
  exact ⟨hnamed, fun name => by rw [hglobals]; rfl⟩

/-- What is stored first and what is stored then. -/
theorem Stored.trans {mid : Machine} {first second : List (String × Value)}
    (stored : Stored m first mid) (stored' : Stored mid second m') :
    Stored m (first ++ second) m' :=
  ⟨stored'.named, fun name => by
    rw [stored'.global?_eq, stored.global?_eq, latest?_append, Option.or_assoc]⟩

/-- Compiling a source on an idle machine stores nothing, and a script that comes out of it can be
called. -/
theorem compileSource_stored (idle : m.Idle) (named : m.Named) {source : String}
    {result : Except (List Diagnostic) Handle} (run : compileSource source m = .ok result m') :
    m'.Idle ∧ Stored m [] m' ∧
      ∀ script, result = .ok script → Ends (fun _ m => m.Ready) (callScript script m') := by
  have hlive : ∀ h ∈ m.rooted, m.heap.Live h := idle.secure.live
  have hterminated := terminated_ofSource source
  rcases compile_total idle.secure.valid hlive hterminated with
    ⟨result', heap, hok, hvalid, hkeeps, -⟩ | ⟨heap, herror, -⟩
  swap
  · cases run.symm.trans (compileSource_of_error herror)
  cases run.symm.trans (compileSource_of_ok hok)
  refine ⟨idle.renew hkeeps hvalid, .of_stay (.of_keeps (fun _ => hvalid.toOrderly)
    fun _ => hkeeps) named idle.secure.valid hvalid, ?_⟩
  rintro script rfl
  exact callScript_compiled idle hok

/-- Starting a script on a machine whose globals are known. -/
theorem callScript_stored (named : m.Named) (valid : m.heap.Valid) {script : Handle}
    (ends : Ends (fun _ m => m.Ready) (callScript script m))
    (ended : Ended (callScript script m) m') :
    Stored m [] m' := by
  refine .of_stay (lasting_namesStay.pervasive.callScript script m m' ended) named valid ?_
  cases hrun : callScript script m with
  | ok u called =>
      rw [hrun] at ends ended
      cases ended
      cases ends with
      | ok hready => exact Machine.Continues.valid (show Machine.Continues .running m' from hready)
  | error i called =>
      rw [hrun] at ends ended
      cases ended
      cases ends with
      | raised _ hidle => exact hidle.secure.valid

/-- Running a source stores what its program stores. -/
theorem runSource_stored (idle : m.Idle) (named : m.Named) {budget : Nat} {source : String}
    {outcome : Outcome} (run : runSource budget source m = .ok outcome m') :
    Stored m (sourceWrites budget source m) m' := by
  obtain ⟨result, compiled, hcompile, hrest⟩ := bind_eq_ok_iff.mp run
  obtain ⟨hidle, hcompiled, hscript⟩ := compileSource_stored idle named hcompile
  cases result with
  | error ds =>
      cases hrest
      rw [sourceWrites, hcompile]
      exact hcompiled
  | ok script =>
      have hends := hscript script rfl
      have hended : Ended ((callScript script >>= fun _ => Machine.run budget) compiled) m' := by
        simp only [runScript, attempt] at hrest
        revert hrest
        generalize (callScript script >>= fun _ => Machine.run budget : Action Status) compiled =
          ending
        intro hrest
        cases ending with
        | ok status last => cases status <;> cases hrest <;> exact .ok
        | error i last => cases i <;> cases hrest; exact .raised
      rcases hended.of_bind with ⟨e, hcall⟩ | ⟨⟨⟩, called, hcall, hended⟩
      · rw [sourceWrites, hcompile]
        simp only [hcall]
        exact hcompiled.trans (callScript_stored hcompiled.named hidle.secure.valid hends
          (hcall ▸ .raised))
      · have hcalled : Stored compiled [] called := by
          refine callScript_stored hcompiled.named hidle.secure.valid hends ?_
          rw [hcall]
          exact .ok
        rw [hcall] at hends
        rw [sourceWrites, hcompile]
        simp only [hcall]
        cases hends with
        | ok hready =>
            obtain ⟨hnamed, hglobals⟩ := Machine.run_writes hready hcalled.named budget hended
            exact (hcompiled.trans hcalled).trans ⟨hnamed, hglobals⟩

/-- Making a host function known stores it. -/
theorem Binds.stored (named : m.Named) (valid : m.heap.Valid) {name : String}
    {run : HostFunction} {native : Handle} (binds : Binds name run m native m')
    (valid' : m'.heap.Valid) : Stored m [(name, .object native)] m' := by
  obtain ⟨hrun, text, heap, hheap, hheap'⟩ := binds
  obtain ⟨text', mid, native', heap', hintern, hallocate, rfl⟩ := bind_ran hrun
  cases hheap.symm.trans hintern
  cases hheap'.symm.trans hallocate
  -- the machine with the name on its stack
  have hinterned := Heap.internedAs_of_ok valid.toOrderly hheap
  have hallocated := Heap.allocated_of_ok (hinterned.orderly valid.toOrderly) hheap'
  have htext : heap'.object? text = some (.string name) :=
    hallocated.kept hinterned.object?_self (.root (by simp [Machine.mem_rooted]))
  have hstay : NamesStay m { m with heap := heap' } := by
    have hpushed : NamesStay { m with heap }
        { m with heap, stack := m.stack.push (.object text) } :=
      lasting_namesStay.elsewhere rfl rfl
    have hpopped : NamesStay { m with heap := heap', stack := m.stack.push (.object text) }
        { m with heap := heap' } := lasting_namesStay.elsewhere rfl rfl
    exact lasting_namesStay.trans (lasting_namesStay.intern hheap) <|
      lasting_namesStay.trans hpushed <|
        lasting_namesStay.trans (lasting_namesStay.allocate (by simp) hheap') hpopped
  have hstored := Stored.of_stay hstay named valid valid'
  constructor
  · intro g v hg
    rw [Std.TreeMap.getElem?_insert] at hg
    split at hg
    · rename_i heq
      obtain rfl := Std.LawfulEqCmp.eq_of_compare heq
      exact ⟨name, htext⟩
    · exact hstored.named g v hg
  · intro other
    have hinsert := Machine.global?_insert (m := { m with heap := heap' }) valid'.toInterned htext
      (.object native) other
    have hbefore : global? { m with heap := heap' } other = global? m other :=
      hstored.global?_eq other
    rw [hbefore] at hinsert
    rw [hinsert, latest?_singleton]
    by_cases hname : other = name
    · rw [if_pos hname, if_pos hname]
      rfl
    · rw [if_neg hname, if_neg hname]
      rfl

/-- Every call of the host stores what it records. -/
theorem Records.stored {stored : List (String × Value)} (idle : m.Idle) (named : m.Named)
    (records : Records HostFunction.Conforms m stored m') : Stored m stored m' := by
  have hvalid := idle.secure.valid
  cases records with
  | @bind name run native _ hconforms hbinds =>
      rcases bind_spec idle name hconforms with ⟨_, hok, hidle⟩ | ⟨_, herror, -⟩
      · cases hbinds.ran.symm.trans hok
        exact hbinds.stored named hvalid hidle.secure.valid
      · cases hbinds.ran.symm.trans herror
  | runSource hrun => exact runSource_stored idle named hrun
  | interpret hrun =>
      obtain ⟨_, mid, hsource, hrest⟩ := bind_eq_ok_iff.mp hrun
      cases hrest
      have hstored := runSource_stored idle named hsource
      exact ⟨hstored.named, hstored.global?_eq⟩
  | collect hrun =>
      obtain ⟨heap, hheap, rfl⟩ := withRoots_eq_ok hrun
      have hcollected := Heap.collected_of_ok hvalid.toOrderly hheap
      exact .of_stay (.of_keeps (fun _ => hcollected.orderly) fun _ g o hreach ho =>
        hcollected.pruned.kept g o ho hreach) named hvalid (hcollected.valid hvalid)
  | takeOutput hrun | takeDiagnostics hrun =>
      cases hrun
      exact ⟨named, fun _ => rfl⟩

/-- After every history, the globals are what the log says. -/
theorem Chronicle.stored (chronicle : Chronicle HostFunction.Conforms log m) :
    m.Named ∧ ∀ name, global? m name = latest? log name := by
  induction chronicle with
  | @begin settings clock native m hbegin hbinds =>
      have hnamed : (blank settings clock).Named := fun h v hfound => by
        simp [blank] at hfound
      have hvalid : (blank settings clock).heap.Valid := Heap.valid_empty _
      have hstored := hbinds.stored hnamed hvalid (idle_of_begin hbegin).secure.valid
      refine ⟨hstored.named, fun name => ?_⟩
      have hnone : global? (blank settings clock) name = none := by
        rw [Option.eq_none_iff_forall_ne_some]
        intro v hv
        obtain ⟨h, -, hfound⟩ := (global?_eq_some_iff hvalid.toInterned).mp hv
        obtain ⟨text, htext⟩ := hnamed h v hfound
        simp [blank] at hfound
      rw [hstored.global?_eq, hnone, Option.or_none]
  | step hchronicle hrecords ih =>
      obtain ⟨hnamed, hglobals⟩ := ih
      have hstored := hrecords.stored hchronicle.arises.idle hnamed
      exact ⟨hstored.named, fun name => by
        rw [hstored.global?_eq, hglobals, latest?_append]⟩

/-- In the middle of every program, the globals are what the log says, and the program can go
on. -/
theorem Amid.stored (amid : Amid HostFunction.Conforms log m) :
    m.Ready ∧ ∀ name, global? m name = latest? log name := by
  obtain @⟨start, compiled, called, _, before, source, script, steps, hchronicle, hcompile, hcall,
    hrun⟩ := amid
  obtain ⟨hnamed, hglobals⟩ := hchronicle.stored
  obtain ⟨hidle, hcompiled, hscript⟩ :=
    compileSource_stored hchronicle.arises.idle hnamed hcompile
  have hends := hscript script rfl
  have hcalled : Stored compiled [] called := by
    refine callScript_stored hcompiled.named hidle.secure.valid hends ?_
    rw [hcall]
    exact .ok
  rw [hcall] at hends
  have hready : called.Ready := by
    cases hends with
    | ok hready => exact hready
  constructor
  · have hcontinues := hready.run steps
    rw [hrun] at hcontinues
    cases hcontinues with
    | ok hready => exact hready
  · intro name
    have hended : Ended (Machine.run steps called) m := hrun ▸ .ok
    have hwrites := (Machine.run_writes hready hcalled.named steps hended).2 name
    have hstored := (hcompiled.trans hcalled).global?_eq name
    rw [hwrites, hstored, hglobals, latest?_append before]
    rfl

/-- The log of a history, or of a history and a program in its middle. -/
inductive Logged (admits : HostFunction → Prop) (log : List (String × Value)) (m : Machine) : Prop
  | outside : Chronicle admits log m → Logged admits log m
  | inside : Amid admits log m → Logged admits log m

/-- Without a call, no instruction is next. -/
theorem access?_eq_none (idle : m.Idle) : m.access? = none := by
  have hfetch : Machine.fetch m = .error (.fault .outOfRange) m := by
    refine bind_of_error ?_
    rw [Machine.frame, bind_of_ok (get_apply m), idle.frames]
    rfl
  rw [Machine.access?, hfetch]

/-- Globals are a map on names. After every history, and before every instruction of every program,
the host finds under a name the value that was stored last under that name, and nothing if there
is none. An instruction that reads or assigns a global raises the error for an undefined variable
exactly if nothing has been stored under its name. -/
theorem globals_are_latest (logged : Logged HostFunction.Conforms log m) (name : String) :
    global? m name = latest? log name ∧
    ∀ op, op = .getGlobal ∨ op = .setGlobal → m.access? = some (op, name) →
      ((∃ e m', Machine.step m = .error (.raised e) m' ∧ e.cause = .undefinedVariable name) ↔
        latest? log name = none) := by
  cases logged with
  | outside chronicle =>
      refine ⟨chronicle.stored.2 name, fun op _ haccess => ?_⟩
      rw [access?_eq_none chronicle.arises.idle] at haccess
      cases haccess
  | inside amid =>
      obtain ⟨hready, hglobals⟩ := amid.stored
      refine ⟨hglobals name, fun op hneeds haccess => ?_⟩
      have hvalid := Machine.Continues.valid (show Machine.Continues .running m from hready)
      rw [Machine.undefined_iff hready.step hvalid.toInterned haccess hneeds, hglobals]

/-- Whether a new machine that has executed a count of instructions of a source passes a check. -/
def passesAfter (steps : Nat) (source : String) (check : Machine → Bool) : Bool :=
  match Session.begin {} (fun _ => 0) with
  | .error _ _ => false
  | .ok () start =>
    match compileSource source start with
    | .error _ _ => false
    | .ok (.error _) _ => false
    | .ok (.ok script) compiled =>
      match callScript script compiled with
      | .error _ _ => false
      | .ok () called =>
        match Machine.run steps called with
        | .error _ _ => false
        | .ok .halted _ => false
        | .ok .running m => check m

/-- Such a machine is in the middle of a program. -/
theorem underway_of_passesAfter {steps : Nat} {source : String} {check : Machine → Bool}
    (passes : passesAfter steps source check = true) :
    ∃ m, Underway HostFunction.Conforms m ∧ check m = true := by
  unfold passesAfter at passes
  split at passes
  · cases passes
  rename_i start hbegin
  split at passes
  · cases passes
  · cases passes
  rename_i script compiled hcompile
  split at passes
  · cases passes
  rename_i called hcall
  split at passes
  · cases passes
  · cases passes
  rename_i m hrun
  exact ⟨m, .intro (.begin hbegin) hcompile hcall hrun, passes⟩

/-- The program that assigns an undefined global has stored another one before. -/
theorem globals_are_latest_missing : ∃ log m, Logged HostFunction.Conforms log m ∧
    (latest? log "g").isSome = true ∧
    ∃ e m', Machine.step m = .error (.raised e) m' ∧ e.cause = .undefinedVariable "missing" := by
  have passes : passesAfter 15 abandonedSource (fun m =>
      decide (m.access? = some (.setGlobal, "missing")) && (global? m "g").isSome &&
        (global? m "missing").isNone) = true := by decide +kernel
  obtain ⟨m, underway, hcheck⟩ := underway_of_passesAfter passes
  simp only [Bool.and_eq_true, decide_eq_true_eq, Option.isNone_iff_eq_none] at hcheck
  obtain ⟨⟨haccess, hsome⟩, hnone⟩ := hcheck
  obtain ⟨log, hamid⟩ := underway.amid
  obtain ⟨hg, -⟩ := globals_are_latest (.inside hamid) "g"
  obtain ⟨hmissing, hraises⟩ := globals_are_latest (.inside hamid) "missing"
  refine ⟨log, m, .inside hamid, hg ▸ hsome, ?_⟩
  exact (hraises .setGlobal (.inr rfl) haccess).mpr (hmissing ▸ hnone)

end Lox.Session
