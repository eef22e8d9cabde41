import Lox.Proofs.Code.WellTyped
import Lox.Proofs.Compile.Abreast.Programs
import Lox.Proofs.Compile.Programs
import Lox.Proofs.Compile.Steady
import Lox.Proofs.Machine.Progress
import Lox.Proofs.Session.History
import Lox.Proofs.Token.Lexer

/-!
# Sessions that cannot go wrong

An idle machine compiles a source into typed code and runs it. The run may be stopped for a
mistake of the program, but no fault of the machine stops it: no index is out of range, and every
handle refers to an object of the kind that is asked for. After the run the machine is idle
again. All this holds as long as the functions of the host conform, and unless the threshold of
the collector leaves the machine word.

## Main definitions

* `Session.Settles` — how the run of a source may end.

## Main results

* `callScript_spec`, `runSource_settles` — from an idle machine.
* `session_cannot_go_wrong` — every source of every session.
-/

namespace Lox

/-! ### Constants -/

namespace Heap

variable {heap : Heap} {entries : List (Nat × Handle)} {building : Option Handle}
  {roots : List Handle} {g h : Handle} {o : Object} {k : Constant}

/-- All that a typed constant reaches is a typed constant, with lines if it has lines. -/
theorem Holds.typed_of_reaches (holds : heap.Holds (.object h) k) (typed : k.Typed)
    (lined : k.Lined) (reaches : heap.Reaches [h] g) :
    ∃ k', heap.Holds (.object g) k' ∧ k'.Typed ∧ k'.Lined := by
  refine Heap.Reaches.induct (P := fun g => ∃ k', heap.Holds (.object g) k' ∧ k'.Typed ∧ k'.Lined)
    (fun g hg => ?_) (fun f o hf ho c hc => ?_) reaches
  · obtain rfl := List.mem_singleton.mp hg
    exact ⟨k, holds, typed, lined⟩
  · obtain ⟨k', hk', htyped, hlined⟩ := hf
    cases hk' with
    | text hs =>
        obtain rfl := Option.some.inj (ho.symm.trans hs)
        cases hc
    | @function _ f name constants hf hnamed hsize hall =>
        obtain rfl := Option.some.inj (ho.symm.trans hf)
        cases htyped with
        | function _ hconstants =>
        cases hlined with
        | function _ hlines =>
        simp only [Object.children, List.mem_append, Option.mem_toList, Option.map_eq_some_iff,
          Value.object.injEq, exists_eq_right, Array.mem_toList_iff] at hc
        rcases hc with hname | hmem
        · rw [hname] at hnamed
          cases name with
          | none => exact hnamed.elim
          | some text => exact ⟨.text text, .text hnamed, .text text, .text text⟩
        · obtain ⟨i, hi, hget⟩ := Array.getElem_of_mem hmem
          have hi' : i < constants.length := hsize ▸ hi
          exact ⟨constants[i], hall i _ _ (by rw [Array.getElem?_eq_getElem hi, hget])
            (List.getElem?_eq_getElem hi'), hconstants _ (List.getElem_mem hi'),
            hlines _ (List.getElem_mem hi')⟩

/-- A typed constant with lines can be relied on. -/
theorem Holds.fine (holds : heap.Holds (.object h) k) (typed : k.Typed) (lined : k.Lined)
    (ho : heap.object? h = some o) : heap.Fine entries building h o := by
  cases holds with
  | text hs =>
      obtain rfl := Option.some.inj (ho.symm.trans hs)
      exact .string _
  | function hf hnamed hsize hall =>
      obtain rfl := Option.some.inj (ho.symm.trans hf)
      exact .function (.function hf hnamed hsize hall) typed lined

/-- A typed constant with lines may become a root. -/
theorem Secure.addConstant (secure : heap.Secure entries building roots)
    (holds : heap.Holds (.object h) k) (typed : k.Typed) (lined : k.Lined) :
    heap.Secure entries building (h :: roots) := by
  refine ⟨secure.valid, fun g hg => ?_, fun g o hreach ho => ?_, secure.opened, secure.nodup⟩
  · rcases List.mem_cons.mp hg with rfl | hg
    · cases holds with
      | text hs => exact ⟨_, hs⟩
      | function hf => exact ⟨_, hf⟩
    · exact secure.live g hg
  · obtain ⟨r, hr, hone⟩ := reaches_iff_exists.mp hreach
    rcases List.mem_cons.mp hr with rfl | hr
    · obtain ⟨k', hholds, htyped, hlined⟩ := holds.typed_of_reaches typed lined hone
      exact hholds.fine htyped hlined ho
    · exact secure.fine g o (reaches_iff_exists.mpr ⟨r, hr, hone⟩) ho

end Heap

namespace Machine

variable {m : Machine} {h : Handle} {heap : Heap} {k : Constant}

/-! ### Idle machines -/

/-- An idle machine keeps alive its globals only. -/
theorem Idle.mem_rooted (idle : m.Idle) : h ∈ m.rooted ↔
    ∃ name v, m.globals[name]? = some v ∧ (h = name ∨ v = .object h) := by
  simp [Machine.mem_rooted, idle.stack, idle.frames, idle.openCells]

/-- An idle machine stays idle in a later heap. -/
theorem Idle.renew (idle : m.Idle) (keeps : m.heap.Keeps m.rooted heap) (valid : heap.Valid) :
    ({ m with heap } : Machine).Idle :=
  ⟨idle.stack, idle.frames, idle.openCells, idle.secure.keeps keeps valid (by simp)⟩

/-- An idle machine can raise a runtime error. -/
theorem Idle.raise {α : Type} {ok : α → Machine → Prop} (idle : m.Idle) {cause : Cause}
    (fair : cause.kind ≠ .invalidBytecode) : Ends ok (raise cause m) := by
  refine raise_spec fair ?_ ?_ ?_
  · rw [idle.openCells]
    exact idle.secure
  · simp [idle.openCells]
  · simp [idle.frames]

end Machine

namespace Session

variable {m m' : Machine} {script : Handle} {t : Template} {constants : List Constant}

/-- Starting a script on an idle machine. -/
theorem callScript_spec (idle : m.Idle)
    (holds : m.heap.Holds (.object script) (.function t constants))
    (typed : (Constant.function t constants).Typed) (lined : (Constant.function t constants).Lined)
    (named : t.name = none) (captures : t.upvalueCount = 0) :
    Ends (fun _ m' => m'.Ready) (callScript script m) := by
  unfold callScript
  refine Ends.bind (show Ends (fun _ m' => m.stack.size < m.stackMax ∧
    m' = { m with stack := m.stack.push (.object script) }) _ from ?_) ?_
  · by_cases hroom : m.stack.size < m.stackMax
    · rw [Machine.push_of_room hroom]
      exact .ok ⟨hroom, rfl⟩
    · rw [Machine.push, if_pos (Nat.not_lt.mp hroom)]
      exact idle.raise (by decide)
  rintro _ _ ⟨hroom, rfl⟩
  have hsecure : m.heap.Secure [] none
      (Machine.rooted { m with stack := m.stack.push (.object script) }) :=
    (idle.secure.addConstant holds typed lined).of_reaches fun g hg => .root (by
      simpa [Machine.mem_rooted, idle.stack, idle.frames, idle.openCells, idle.mem_rooted] using hg)
  cases holds with
  | @function _ f name _ hf hnamed hsize hall =>
  have hupvalues : f.upvalueCount ≤ Draft.maxCaptures := by
    cases typed with
    | function hlisted => exact hlisted.room
  have hreach : m.heap.Reaches (Machine.rooted { m with stack := m.stack.push (.object script) })
      script := .root (by simp [Machine.mem_rooted])
  refine (Machine.withRoots_spec _ (hsecure.allocateClosure hreach hf hupvalues)).bind ?_
  rintro c m₁ ⟨heq, hvalid, hkeeps, hclosure, -⟩
  have hf₁ := hkeeps _ _ hreach hf
  have hsecure₁ := (hsecure.keeps hkeeps hvalid (by simp)).add hclosure
    (fun g hg => by
      obtain rfl : g = script := by simpa [Object.children] using hg
      exact hkeeps.reaches hreach)
    (.closure hf₁ (by simp) fun _ => captures.symm)
  have hstack : m₁.stack.pop = #[] := by
    rw [heq]
    simp [idle.stack]
  rw [bind_of_ok (Machine.pop_apply m₁), hstack]
  have hroom₁ : 0 < m₁.stackMax := by
    rw [heq]
    exact Nat.zero_lt_of_lt hroom
  rw [bind_of_ok (Machine.push_of_room (m := { m₁ with stack := #[] }) hroom₁)]
  have hframes : m₁.frames = [] := by rw [heq]; exact idle.frames
  have hcells : m₁.openCells = {} := by rw [heq]; exact idle.openCells
  have hroot : c ∈ Machine.rooted { m₁ with stack := #[.object c] } := by simp [Machine.mem_rooted]
  refine Machine.call_spec (m := { m₁ with stack := #[.object c] }) [] ?_ (.root hroot)
    hclosure (by simp) ?_ rfl ?_ ?_ ?_ ?_ ?_
  · have hglobals : m₁.globals = m.globals := by rw [heq]
    simp only [hcells]
    refine hsecure₁.of_reaches fun g hg => .root ?_
    simp only [Machine.mem_rooted, hframes, hglobals] at hg
    rcases hg with hg | ⟨_, hg, -⟩ | ⟨_, hg, -⟩ | hg
    · obtain rfl : g = c := by simpa using hg
      exact List.mem_cons_self ..
    · cases hg
    · cases hg
    · exact List.mem_cons_of_mem _ (Machine.mem_rooted.mpr (.inr (.inr (.inr hg))))
  · simp only [hframes]
    exact .nil
  · intro _ g hg
    obtain rfl : f = g := by simpa [hf₁] using hg
    obtain rfl : name = none := named
    cases hname : f.name with
    | none => rfl
    | some text =>
        rw [hname] at hnamed
        exact hnamed.elim
  · simp [hcells]
  · simp [hframes]
  · simp [hframes]
  · exact hroom₁

/-! ### Sources -/

/-- Starting the script of a source that has been compiled. -/
theorem callScript_compiled {source : String} {heap : Heap} (idle : m.Idle)
    (run : compile (.ofSource source) m.rooted m.heap = .ok (.ok script) heap) :
    Ends (fun _ m' => m'.Ready) (callScript script { m with heap }) := by
  have hlive : ∀ h ∈ m.rooted, m.heap.Live h := idle.secure.live
  have hterminated := terminated_ofSource source
  rcases compile_total idle.secure.valid hlive hterminated with
    ⟨_, _, hok, hvalid, hkeeps, -⟩ | ⟨_, herror, -⟩
  swap
  · cases run.symm.trans herror
  cases run.symm.trans hok
  obtain ⟨-, -, program, t, constants, -, hholds, hscript, hcompiled⟩ :=
    compile_sound hterminated idle.secure.valid hlive run
  exact callScript_spec (idle.renew hkeeps hvalid) hholds
    (.function hscript.listed fun k hk => (hcompiled k hk).typed)
    (Produces.lined ⟨_, _, script, heap, idle.secure.valid, hlive, run, hholds⟩) hscript.name
    hscript.upvalueCount

/-- How the run of a source may end. -/
inductive Settles : EStateM.Result Fault Machine Outcome → Prop
  | finished {m : Machine} : m.Idle → Settles (.ok .finished m)
  | rejected {ds : List Diagnostic} {m : Machine} : m.Idle → Settles (.ok (.rejected ds) m)
  | failed {e : RuntimeError} {m : Machine} : e.cause.kind ≠ .invalidBytecode → m.Idle →
      Settles (.ok (.failed e) m)
  | paused {m : Machine} : m.Ready → Settles (.ok .paused m)
  | lost {m : Machine} : m.heap.Overfull → Settles (.error .overflow m)

/-- A run that goes on or ends as it should settles. -/
theorem attempt_settles {action : Action Status} (ends : Ends Machine.Continues (action m)) :
    Settles (attempt action m) := by
  unfold attempt
  generalize action m = result at ends
  cases ends with
  | @ok status _ hcontinues =>
      cases status with
      | running => exact .paused hcontinues
      | halted => exact .finished hcontinues
  | raised hfair hidle => exact .failed hfair hidle
  | lost hlost =>
      obtain ⟨rfl, hover⟩ := hlost
      exact .lost hover

/-- A source that is compiled on the heap is compiled in the session. -/
theorem compileSource_of_ok {source : String} {result : Except (List Diagnostic) Handle}
    {heap : Heap} (run : compile (.ofSource source) m.rooted m.heap = .ok result heap) :
    compileSource source m = .ok result { m with heap } := by
  unfold compileSource
  dsimp only
  rw [show compile _ (Machine.roots m.stack m.frames m.openCells m.globals) m.heap = _ from run]

/-- A source that fails on the heap fails in the session. -/
theorem compileSource_of_error {source : String} {f : Fault} {heap : Heap}
    (run : compile (.ofSource source) m.rooted m.heap = .error f heap) :
    compileSource source m = .error f { m with heap } := by
  unfold compileSource
  dsimp only
  rw [show compile _ (Machine.roots m.stack m.frames m.openCells m.globals) m.heap = _ from run]

/-- An idle machine runs every source. -/
theorem runSource_settles (idle : m.Idle) (budget : Nat) (source : String) :
    Settles (runSource budget source m) := by
  have hlive : ∀ h ∈ m.rooted, m.heap.Live h := idle.secure.live
  have hterminated := terminated_ofSource source
  unfold runSource
  rcases compile_total idle.secure.valid hlive hterminated with
    ⟨result, heap, hrun, hvalid, hkeeps, -⟩ | ⟨heap, herror, hover⟩
  · have hidle := idle.renew hkeeps hvalid
    rw [bind_of_ok (compileSource_of_ok hrun)]
    cases result with
    | error ds => exact .rejected hidle
    | ok script =>
        refine attempt_settles ((callScript_compiled idle hrun).bind ?_)
        rintro _ m' hready
        exact hready.run budget
  · rw [bind_of_error (compileSource_of_error herror)]
    exact .lost hover

/-- What has been reported does not matter. -/
theorem Settles.record {outcome : Outcome} (settles : Settles (.ok outcome m)) :
    Settles (.ok outcome { m with diagnostics := m.diagnostics ++ reportText outcome }) := by
  cases settles with
  | finished hidle => exact .finished { hidle with }
  | rejected hidle => exact .rejected { hidle with }
  | failed hfair hidle => exact .failed hfair { hidle with }
  | paused hready =>
      obtain ⟨C, P, poised, whole, next⟩ := hready
      exact .paused ⟨C, P, { poised with }, whole, next⟩

/-- An idle machine interprets every source. -/
theorem interpret_settles (idle : m.Idle) (budget : Nat) (source : String) :
    Settles (interpret budget source m) := by
  have hsettles := runSource_settles idle budget source
  unfold interpret
  cases hrun : runSource budget source m with
  | ok outcome m' =>
      rw [hrun] at hsettles
      rw [bind_of_ok hrun]
      exact hsettles.record
  | error f m' =>
      rw [hrun] at hsettles
      rw [bind_of_error hrun]
      exact hsettles

/-! ### Histories -/

/-- An operation of the heap that is given the roots succeeds with it. -/
theorem withRoots_of_ok {α : Type} {operation : List Handle → HeapM α} {a : α} {heap : Heap}
    (run : operation m.rooted m.heap = .ok a heap) :
    withRoots operation m = .ok a { m with heap } := by
  unfold withRoots
  rw [show operation (Machine.roots m.stack m.frames m.openCells m.globals) m.heap = _ from run]

/-- An operation of the heap that is given the roots fails with it. -/
theorem withRoots_of_error {α : Type} {operation : List Handle → HeapM α} {f : Fault} {heap : Heap}
    (run : operation m.rooted m.heap = .error f heap) :
    withRoots operation m = .error f { m with heap } := by
  unfold withRoots
  rw [show operation (Machine.roots m.stack m.frames m.openCells m.globals) m.heap = _ from run]

/-- Making a host function that conforms known leaves a machine idle. -/
theorem bind_spec (idle : m.Idle) (name : String) {run : HostFunction} (conforms : run.Conforms) :
    (∃ m', Session.bind name run m = .ok () m' ∧ m'.Idle) ∨
    ∃ m', Session.bind name run m = .error .overflow m' ∧ m'.heap.Overfull := by
  unfold Session.bind
  rcases Heap.intern_spec idle.secure.valid idle.secure.live name with
    ⟨h, heap, hrun, hinterned⟩ | ⟨heap, herror, hover⟩
  swap
  · exact .inr ⟨_, bind_of_error (withRoots_of_error herror), hover⟩
  rw [bind_of_ok (withRoots_of_ok hrun), bind_of_ok (modify_apply _ _)]
  -- the machine with the name on its stack
  let mid : Machine := { m with heap, stack := m.stack.push (.object h) }
  have hsecure : heap.Secure [] none mid.rooted := by
    have hnamed := (idle.secure.keeps hinterned.keeps
      (hinterned.valid idle.secure.valid) (by simp)).add hinterned.object?_self
      (by simp [Object.children]) (.string name)
    refine hnamed.of_reaches fun g hg => .root ?_
    rw [List.mem_cons, idle.mem_rooted]
    simpa [mid, Machine.mem_rooted, idle.stack, idle.frames, idle.openCells] using hg
  rcases hsecure.allocate (o := .native { name, run }) (by simp) (by simp [Object.children]) with
    ⟨n, heap', hrun', hvalid, hkeeps, hn, -⟩ | ⟨heap', herror, hover⟩
  swap
  · exact .inr ⟨_, bind_of_error (withRoots_of_error (m := mid) herror), hover⟩
  rw [bind_of_ok (withRoots_of_ok (m := mid) hrun'), modify_apply]
  refine .inl ⟨_, rfl, ⟨by simp [mid, idle.stack], idle.frames, idle.openCells, ?_⟩⟩
  have hbound := (hsecure.keeps hkeeps hvalid (by simp)).add hn (by simp [Object.children])
    (.native conforms)
  refine hbound.of_reaches fun g hg => .root ?_
  have hh : h ∈ mid.rooted := by simp [mid, Machine.mem_rooted]
  simp only [Machine.mem_rooted, mid, idle.stack, idle.frames, idle.openCells] at hg
  rcases hg with hg | ⟨_, hg, -⟩ | ⟨_, hg, -⟩ | ⟨key, v, hkey, hg⟩
  · simp at hg
  · cases hg
  · cases hg
  · rw [Std.TreeMap.getElem?_insert] at hkey
    split at hkey
    · rename_i heq
      obtain rfl := Std.LawfulEqCmp.eq_of_compare heq
      cases hkey
      rcases hg with rfl | hg
      · exact List.mem_cons_of_mem _ hh
      · obtain rfl := Value.object.inj hg
        exact List.mem_cons_self ..
    · exact List.mem_cons_of_mem _ (Machine.mem_rooted.mpr (.inr (.inr (.inr ⟨key, v, hkey, hg⟩))))

/-- A collection leaves a machine idle. -/
theorem collect_spec (idle : m.Idle) :
    (∃ m', Session.collect m = .ok () m' ∧ m'.Idle) ∨
    ∃ m', Session.collect m = .error .overflow m' ∧ m'.heap.Overfull := by
  rcases Heap.collect_spec idle.secure.valid.toSound idle.secure.live with
    ⟨heap, hrun, hcollected⟩ | ⟨heap, herror, hover⟩
  · exact .inl ⟨_, withRoots_of_ok hrun, idle.renew
      (fun g o hreach ho => hcollected.pruned.kept g o ho hreach)
      (hcollected.valid idle.secure.valid)⟩
  · exact .inr ⟨_, withRoots_of_error herror, hover⟩

/-- A new machine is idle. -/
theorem idle_of_begin {settings : Settings} {clock : Nat → Float}
    (run : Session.begin settings clock = .ok () m) : m.Idle := by
  have hblank : (blank settings clock).Idle := by
    have hrooted : ∀ h, h ∉ (blank settings clock).rooted := by
      simp [Machine.mem_rooted, blank]
    refine ⟨rfl, rfl, rfl, Heap.valid_empty _, fun h hh => absurd hh (hrooted h),
      fun h o hreach _ => ?_, by simp, .nil⟩
    exact (hreach.induct (P := fun _ => False) (fun g hg => hrooted g hg)
      fun _ _ hfalse _ _ _ => hfalse).elim
  have hclock : HostFunction.Conforms clockFunction := fun _ _ _ h => by cases h
  unfold Session.begin at run
  dsimp only at run
  split at run
  · cases run
  · rcases bind_spec hblank "clock" hclock with ⟨_, hok, hidle⟩ | ⟨_, herror, -⟩
    · cases run.symm.trans hok
      exact hidle
    · cases run.symm.trans herror

/-- Every history of a session leads to an idle machine. -/
theorem Arises.idle (arises : Arises HostFunction.Conforms m) : m.Idle := by
  have settled : ∀ {outcome : Outcome} {m : Machine}, Settles (.ok outcome m) →
      outcome ≠ .paused → m.Idle := fun settles hpaused => by
    cases settles with
    | finished hidle | rejected hidle | failed _ hidle => exact hidle
    | paused => exact absurd rfl hpaused
  induction arises with
  | begin hrun => exact idle_of_begin hrun
  | step _ hstep ih =>
      cases hstep with
      | @bind name run _ hconforms hrun =>
          rcases bind_spec ih name hconforms with ⟨_, hok, hidle⟩ | ⟨_, herror, -⟩
          · cases hrun.symm.trans hok
            exact hidle
          · cases hrun.symm.trans herror
      | @runSource budget source _ _ hrun hpaused =>
          exact settled (hrun ▸ runSource_settles ih budget source) hpaused
      | @interpret budget source _ _ hrun hpaused =>
          exact settled (hrun ▸ interpret_settles ih budget source) hpaused
      | collect hrun =>
          rcases collect_spec ih with ⟨_, hok, hidle⟩ | ⟨_, herror, -⟩
          · cases hrun.symm.trans hok
            exact hidle
          · cases hrun.symm.trans herror
      | takeOutput hrun =>
          cases hrun
          exact { ih with }
      | takeDiagnostics hrun =>
          cases hrun
          exact { ih with }

/-- What no program can make a machine do: it never stops with a fault, unless the threshold of
the collector leaves the machine word; it never finds its own code broken; and it stays within
the limits of its stacks. -/
def Sane : EStateM.Result Fault Machine Outcome → Prop
  | .ok outcome m =>
    (∀ e, outcome = .failed e → e.cause.kind ≠ .invalidBytecode) ∧
      m.frames.length ≤ Machine.maxFrames ∧ m.stack.size ≤ m.stackMax
  | .error f m => f = .overflow ∧ maxWord < m.heap.bytes * m.heap.policy.growth

/-- A run that settles is sane. -/
theorem Settles.sane {result : EStateM.Result Fault Machine Outcome} (settles : Settles result) :
    Sane result := by
  have limits : ∀ {m : Machine}, m.Idle →
      m.frames.length ≤ Machine.maxFrames ∧ m.stack.size ≤ m.stackMax := fun idle => by
    simp [idle.frames, idle.stack]
  cases settles with
  | finished hidle => exact ⟨by simp, limits hidle⟩
  | rejected hidle => exact ⟨by simp, limits hidle⟩
  | failed hfair hidle => exact ⟨by simpa using hfair, limits hidle⟩
  | paused hready =>
      obtain ⟨C, P, poised, -⟩ := hready
      exact ⟨by simp, poised.depth, poised.room⟩
  | lost hover => exact ⟨rfl, hover⟩

/-- Compiled programs cannot go wrong. Whatever came before, every source can be run for any
number of instructions: the machine stops for no fault but a collector's threshold that leaves
the machine word, it raises no error about its own code, and both its stacks keep within their
limits. -/
theorem session_cannot_go_wrong (arises : Arises HostFunction.Conforms m) (budget : Nat)
    (source : String) :
    Sane (runSource budget source m) ∧ Sane (interpret budget source m) :=
  ⟨(runSource_settles arises.idle budget source).sane,
    (interpret_settles arises.idle budget source).sane⟩

/-- A new machine runs a small program. -/
theorem session_cannot_go_wrong_sum : ∃ m, Session.begin {} (fun _ => 0) = .ok () m ∧
    Arises HostFunction.Conforms m ∧ Sane (runSource 100 "print 1 + 2;" m) ∧
      Sane (interpret 100 "print 1 + 2;" m) := by
  obtain ⟨m, hbegin⟩ : ∃ m, Session.begin {} (fun _ => 0) = .ok () m := ⟨_, rfl⟩
  have arises : Arises HostFunction.Conforms m := .begin hbegin
  exact ⟨m, hbegin, arises, session_cannot_go_wrong arises 100 "print 1 + 2;"⟩

end Session

end Lox
