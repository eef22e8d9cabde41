import Lox.Proofs.Machine.Lockstep
import Lox.Proofs.Session.Safety
import Lox.Proofs.Compile.Allocations

/-!
# Collections go unnoticed

Two machines that may collect at different times are given the same sources and the same host
functions. Only their handles can differ: what they print and report, how each source ends and
which globals there are is the same for both. Collections that the host asks for in between, of
one machine or of both, make no difference either.

A run can be lost to a threshold that leaves the machine word. Nothing is said of the other
machine from then on.

## Main definitions

* `Session.Twins` — machines that have been given the same sources.
* `Session.Indistinct` — machines that a host cannot tell apart.

## Main results

* `Twins.alike` — machines that have been given the same sources differ in their handles only.
* `collections_unobservable` — no host can tell when collections strike.
-/

namespace Lox

/-- Interning strings and allocating functions leaves the heap obliging. -/
theorem Compiler.Evolution.obliging {heap heap' : Heap}
    (evolution : Compiler.Evolution heap heap') (orderly : heap.Orderly)
    (obliging : heap.Obliging) : heap'.Orderly ∧ heap'.Obliging := by
  induction evolution with
  | refl => exact ⟨orderly, obliging⟩
  | tail _ huse ih =>
      obtain ⟨hmid, hobliging⟩ := ih
      cases huse with
      | intern hrun =>
          have hinterned := Heap.internedAs_of_ok hmid hrun
          exact ⟨hinterned.orderly hmid, hinterned.obliging hobliging⟩
      | function hrun =>
          have hallocated := Heap.allocated_of_ok hmid hrun
          exact ⟨hallocated.orderly, hallocated.obliging hobliging fun _ h => by cases h⟩

/-- A host function that does not look at handles gives back no other than those it is given. -/
theorem HostFunction.Equivariant.conforms {run : HostFunction} (equivariant : run.Equivariant) :
    run.Conforms := by
  intro reading arguments h hresult
  -- the handles that are given, each paired with itself
  let given : Renaming := fun a b => a = b ∧ .object a ∈ arguments.toList
  have honeToOne : given.OneToOne :=
    ⟨fun _ _ _ hab hac => hab.1.symm.trans hac.1, fun _ _ _ hac hbc => hac.1.trans hbc.1.symm⟩
  have hvalues : List.Forall₂ (Value.Alike given) arguments.toList arguments.toList :=
    List.forall₂_same.mpr fun v hv => .refl fun g hg => ⟨rfl, hg ▸ hv⟩
  have halike := equivariant given honeToOne reading _ _ hvalues
  rw [hresult] at halike
  cases halike with
  | object hpair => exact hpair.2

namespace Session

variable {m m' n n' : Machine} {ρ : Renaming} {α β : Type}

/-! ### Calls that agree -/

/-- Two runs of a call that agree. -/
abbrev Agrees (R : α → Machine → α → Machine → Prop) :
    EStateM.Result Fault Machine α → EStateM.Result Fault Machine α → Prop :=
  Agree R (fun f _ f' _ => f' = f) fun f m => Heap.Lost f m.heap

open Machine (Goes)

/-- An operation of the heap that agrees. -/
theorem withRoots_agrees (alike : m.Alike ρ m') {R : Renaming → α → α → Prop}
    {operation : List Handle → HeapM α}
    (agree : Agree (fun a mid b mid' => ∃ ρ', m.heap.Onward ρ m.rooted mid ρ' mid' ∧ R ρ' a b)
      (fun _ _ _ _ => False) Heap.Lost (operation m.rooted m.heap) (operation m'.rooted m'.heap))
    (obliging : ∀ a mid, operation m.rooted m.heap = .ok a mid → mid.Obliging) :
    Agrees (fun a n b n' => ∃ ρ', Machine.Moves m ρ m' n ρ' n' ∧ R ρ' a b)
      (withRoots operation m) (withRoots operation m') := by
  cases hrun : operation m.rooted m.heap with
  | error f mid =>
      rw [hrun] at agree
      rw [withRoots_of_error hrun]
      cases hrun' : operation m'.rooted m'.heap with
      | error f' mid' =>
          rw [hrun'] at agree
          rw [withRoots_of_error hrun']
          cases agree with
          | fail h => exact h.elim
          | first h => exact .first h
          | second h => exact .second h
      | ok b mid' =>
          rw [hrun'] at agree
          cases agree with
          | first h => exact .first h
  | ok a mid =>
      rw [hrun] at agree
      rw [withRoots_of_ok hrun]
      cases hrun' : operation m'.rooted m'.heap with
      | error f' mid' =>
          rw [hrun'] at agree
          rw [withRoots_of_error hrun']
          cases agree with
          | second h => exact .second h
      | ok b mid' =>
          rw [hrun'] at agree
          rw [withRoots_of_ok hrun']
          cases agree with
          | ok h =>
              obtain ⟨ρ', honward, hrelated⟩ := h
              exact .ok ⟨ρ', ⟨alike.move honward (obliging a mid hrun), rfl, rfl, honward.pairs,
                honward.keeps⟩, hrelated⟩

/-! ### Sources -/

/-- Compiling the same source. -/
theorem compileSource_agrees (alike : m.Alike ρ m') (source : String) :
    Agrees (fun r n r' n' => ∃ ρ', Machine.Moves m ρ m' n ρ' n' ∧ Compiled.Alike ρ' r r')
      (compileSource source m) (compileSource source m') := by
  have hcompile : compileSource source = withRoots (compile (.ofSource source)) := by
    funext n
    cases hrun : compile (.ofSource source) n.rooted n.heap with
    | ok r heap => rw [compileSource_of_ok hrun, withRoots_of_ok hrun]
    | error f heap => rw [compileSource_of_error hrun, withRoots_of_error hrun]
  rw [hcompile]
  refine withRoots_agrees alike (R := Compiled.Alike)
    (compile_alike alike.heap alike.covers (terminated_ofSource source)) fun r mid hrun => ?_
  exact ((compile_evolves hrun).obliging alike.heap.valid.toOrderly alike.obliging).2

/-- Starting paired functions as scripts. -/
theorem callScript_agrees (alike : m.Alike ρ m') {g h : Handle} (pair : ρ g h) :
    Machine.Agrees Goes (callScript g m) (callScript h m') := by
  unfold callScript
  refine (Machine.push_agrees alike (.object pair)).bind ?_
  rintro _ n _ n' ⟨hn, heq, -⟩
  have hreach : n.heap.Reaches n.rooted g := .root (by simp [Machine.mem_rooted, heq])
  refine (Machine.allocateClosure_agrees hn pair hreach).bind ?_
  rintro c k c' k' ⟨ρ', hmoves, hclosure⟩
  refine (Machine.pop_agrees hmoves.alike).bind ?_
  rintro _ q _ q' ⟨hq, -⟩
  refine (Machine.push_agrees hq (.object hclosure)).bind ?_
  rintro _ r _ r' ⟨hr, -⟩
  exact (Machine.call_agrees hr hclosure 0).imp fun _ _ _ _ h => ⟨rfl, ρ', h⟩

/-- Seeing how actions that agree end. -/
theorem attempt_agrees {x y : Action Status} (agree : Machine.Agrees Goes (x m) (y m')) :
    Agrees Goes (attempt x m) (attempt y m') := by
  unfold attempt
  generalize x m = left at agree
  generalize y m' = right at agree
  cases agree with
  | @ok _ _ status _ h =>
      obtain ⟨rfl, halike⟩ := h
      cases status with
      | running => exact .ok ⟨rfl, halike⟩
      | halted => exact .ok ⟨rfl, halike⟩
  | fail h =>
      cases h with
      | raised halike => exact .ok ⟨rfl, _, halike⟩
      | fault => exact .fail rfl
  | first h =>
      obtain ⟨f, rfl, hlost⟩ := h
      exact .first hlost
  | second h =>
      obtain ⟨f, rfl, hlost⟩ := h
      exact .second hlost

/-- Running the same source. -/
theorem runSource_agrees (alike : m.Alike ρ m') (budget : Nat) (source : String) :
    Agrees Goes (runSource budget source m) (runSource budget source m') := by
  unfold runSource
  refine (compileSource_agrees alike source).bind ?_
  rintro r n r' n' ⟨ρ', hmoves, hcompiled⟩
  cases hcompiled with
  | rejected ds => exact .ok ⟨rfl, ρ', hmoves.alike⟩
  | accepted hpair =>
      refine attempt_agrees ((callScript_agrees hmoves.alike hpair).bind ?_)
      rintro _ k _ k' ⟨-, ρ'', hk⟩
      exact Machine.run_agrees hk budget

/-- Interpreting the same source. -/
theorem interpret_agrees (alike : m.Alike ρ m') (budget : Nat) (source : String) :
    Agrees Goes (interpret budget source m) (interpret budget source m') := by
  unfold interpret
  refine (runSource_agrees alike budget source).bind ?_
  rintro _ n outcome n' ⟨rfl, ρ', hn⟩
  exact .ok ⟨rfl, ρ', { hn with
    diagnostics := congrArg (· ++ reportText outcome) hn.diagnostics }⟩

/-! ### Host functions and collections -/

/-- Making the same host function known. -/
theorem bind_agrees (alike : m.Alike ρ m') (name : String) {run : HostFunction}
    (equivariant : run.Equivariant) :
    Agrees Goes (Session.bind name run m) (Session.bind name run m') := by
  unfold Session.bind
  refine (withRoots_agrees alike (R := fun ρ' a b => ρ' a b) ?_ fun a mid hrun => ?_).bind ?_
  · refine (alike.heap.intern alike.covers name).imp ?_
    rintro a mid b mid' ⟨ρ', honward, hpair, -⟩
    exact ⟨ρ', honward, hpair⟩
  · exact (Heap.internedAs_of_ok alike.heap.valid.toOrderly hrun).obliging alike.obliging
  rintro g n h n' ⟨ρ', hmoves, hname⟩
  rw [bind_of_ok (modify_apply _ n), bind_of_ok (modify_apply _ n')]
  have hn : ({ n with stack := n.stack.push (.object g) } : Machine).Alike ρ'
      { n' with stack := n'.stack.push (.object h) } := hmoves.alike.restack (by
      rw [Array.toList_push, Array.toList_push]
      exact List.rel_append hmoves.alike.stack (.cons (.object hname) .nil))
  refine (withRoots_agrees hn (R := fun ρ' a b => ρ' a b) ?_ fun a mid hrun => ?_).bind ?_
  · refine (hn.heap.allocate hn.covers (.native { name, run }) (fun _ h => by cases h)
      (by simp [Object.children])).imp ?_
    rintro a mid b mid' ⟨ρ'', honward, hpair, -⟩
    exact ⟨ρ'', honward, hpair⟩
  · refine (Heap.allocated_of_ok hn.heap.valid.toOrderly hrun).obliging hn.obliging ?_
    rintro _ ⟨⟩
    exact equivariant
  rintro a k b k' ⟨ρ'', hmoves', hnative⟩
  have hname' := hmoves'.pairs g h hname (.root (by simp [Machine.mem_rooted]))
  have hbound := hmoves'.alike.setGlobal hname' (.object hnative)
  refine .ok ⟨rfl, ρ'', { hbound with stack := ?_ }⟩
  simp only [Array.toList_pop, List.dropLast_eq_take, hmoves'.alike.stack.length_eq]
  exact List.forall₂_take _ hmoves'.alike.stack

/-- A collection of the first machine. -/
theorem collect_alike (alike : m.Alike ρ m') (run : Session.collect m = .ok () n) :
    ∃ ρ', n.Alike ρ' m' := by
  unfold Session.collect withRoots at run
  split at run
  · rename_i hrun
    cases run
    have hcollected := Heap.collected_of_ok alike.heap.valid.toOrderly hrun
    exact ⟨_, alike.move (alike.heap.collectFirst alike.covers hcollected)
      (hcollected.obliging alike.obliging)⟩
  · cases run

/-- A collection of the second machine. -/
theorem alike_collect (alike : m.Alike ρ m') (run : Session.collect m' = .ok () n') :
    ∃ ρ', m.Alike ρ' n' := by
  unfold Session.collect withRoots at run
  split at run
  · rename_i hrun
    cases run
    have hcollected := Heap.collected_of_ok alike.heap.valid'.toOrderly hrun
    exact ⟨_, alike.move (alike.heap.collectSecond alike.covers hcollected) alike.obliging⟩
  · cases run

/-! ### Twins -/

/-- Machines that have been given the same sources and the same host functions. Their settings
may differ in when they collect, and collections may have been asked for at any time. -/
inductive Twins : Machine → Machine → Prop
  | begin {settings settings' : Settings} {clock : Nat → Float} {m m' : Machine} :
      Session.begin settings clock = .ok () m → Session.begin settings' clock = .ok () m' →
      settings'.stackMax = settings.stackMax →
      settings'.outputCapacity = settings.outputCapacity → Twins m m'
  | bind {m m' n n' : Machine} {name : String} {run : HostFunction} : Twins m m' →
      run.Equivariant → Session.bind name run m = .ok () n → Session.bind name run m' = .ok () n' →
        Twins n n'
  | runSource {m m' n n' : Machine} {budget : Nat} {source : String} {o o' : Outcome} :
      Twins m m' → Session.runSource budget source m = .ok o n →
      Session.runSource budget source m' = .ok o' n' → o ≠ .paused → Twins n n'
  | interpret {m m' n n' : Machine} {budget : Nat} {source : String} {o o' : Outcome} :
      Twins m m' → Session.interpret budget source m = .ok o n →
      Session.interpret budget source m' = .ok o' n' → o ≠ .paused → Twins n n'
  | takeOutput {m m' n n' : Machine} {text text' : String} : Twins m m' →
      Session.takeOutput m = .ok text n → Session.takeOutput m' = .ok text' n' → Twins n n'
  | takeDiagnostics {m m' n n' : Machine} {text text' : String} : Twins m m' →
      Session.takeDiagnostics m = .ok text n → Session.takeDiagnostics m' = .ok text' n' →
        Twins n n'
  | collectFirst {m m' n : Machine} : Twins m m' → Session.collect m = .ok () n → Twins n m'
  | collectSecond {m m' n' : Machine} : Twins m m' → Session.collect m' = .ok () n' → Twins m n'

/-- New machines are alike. -/
theorem alike_of_begin {settings settings' : Settings} {clock : Nat → Float}
    (stackMax : settings'.stackMax = settings.stackMax)
    (capacity : settings'.outputCapacity = settings.outputCapacity)
    (run : Session.begin settings clock = .ok () m)
    (run' : Session.begin settings' clock = .ok () m') : ∃ ρ, m.Alike ρ m' := by
  have hblank : (blank settings clock).Alike (fun _ _ => False) (blank settings' clock) :=
    { heap := ⟨⟨⟨by simp, by simp⟩, by simp⟩, Heap.valid_empty _, Heap.valid_empty _⟩
      stack := .nil, frames := .nil, openCells := .nil
      globals := ⟨by simp [blank], by simp [blank]⟩
      printout := by simp [blank, capacity]
      diagnostics := rfl, stackMax := stackMax, clock := rfl, hostCalls := rfl
      entered := by simp [blank]
      obliging := by simp [Heap.Obliging, blank, Heap.object?, Heap.empty] }
  have hclock : HostFunction.Equivariant clockFunction := fun _ _ reading _ _ _ => .number reading
  have hbound := bind_agrees hblank "clock" hclock
  unfold Session.begin at run run'
  dsimp only at run run'
  split at run
  · cases run
  split at run'
  · cases run'
  rw [run, run'] at hbound
  cases hbound with
  | ok h => exact h.2

/-- Calls that both answer and agree give the same answer, and leave machines that are alike. -/
theorem goes_of_ok {x y : Session α} {a b : α} (agree : Agrees Goes (x m) (y m'))
    (run : x m = .ok a n) (run' : y m' = .ok b n') : b = a ∧ ∃ ρ, n.Alike ρ n' := by
  rw [run, run'] at agree
  cases agree with
  | ok h => exact h

/-- Machines that have been given the same sources differ in their handles only, and each of them
has a history. -/
theorem Twins.alike (twins : Twins m m') : (∃ ρ, m.Alike ρ m') ∧
    Arises HostFunction.Conforms m ∧ Arises HostFunction.Conforms m' := by
  induction twins with
  | begin hrun hrun' hstack hcapacity =>
      exact ⟨alike_of_begin hstack hcapacity hrun hrun', .begin hrun, .begin hrun'⟩
  | @bind _ _ _ _ name run _ hequivariant hrun hrun' ih =>
      obtain ⟨⟨ρ, halike⟩, harises, harises'⟩ := ih
      exact ⟨(goes_of_ok (bind_agrees halike name hequivariant) hrun hrun').2,
        harises.step (.bind hequivariant.conforms hrun),
        harises'.step (.bind hequivariant.conforms hrun')⟩
  | @runSource _ _ _ _ budget source _ _ _ hrun hrun' hended ih =>
      obtain ⟨⟨ρ, halike⟩, harises, harises'⟩ := ih
      obtain ⟨rfl, hnext⟩ := goes_of_ok (runSource_agrees halike budget source) hrun hrun'
      exact ⟨hnext, harises.step (.runSource hrun hended), harises'.step (.runSource hrun' hended)⟩
  | @interpret _ _ _ _ budget source _ _ _ hrun hrun' hended ih =>
      obtain ⟨⟨ρ, halike⟩, harises, harises'⟩ := ih
      obtain ⟨rfl, hnext⟩ := goes_of_ok (interpret_agrees halike budget source) hrun hrun'
      exact ⟨hnext, harises.step (.interpret hrun hended), harises'.step (.interpret hrun' hended)⟩
  | takeOutput _ hrun hrun' ih =>
      obtain ⟨⟨ρ, halike⟩, harises, harises'⟩ := ih
      refine ⟨⟨ρ, ?_⟩, harises.step (.takeOutput hrun), harises'.step (.takeOutput hrun')⟩
      cases hrun
      cases hrun'
      exact { halike with printout := congrArg Printout.taken halike.printout }
  | takeDiagnostics _ hrun hrun' ih =>
      obtain ⟨⟨ρ, halike⟩, harises, harises'⟩ := ih
      refine ⟨⟨ρ, ?_⟩, harises.step (.takeDiagnostics hrun), harises'.step (.takeDiagnostics hrun')⟩
      cases hrun
      cases hrun'
      exact { halike with diagnostics := rfl }
  | collectFirst _ hrun ih =>
      obtain ⟨⟨ρ, halike⟩, harises, harises'⟩ := ih
      exact ⟨collect_alike halike hrun, harises.step (.collect hrun), harises'⟩
  | collectSecond _ hrun ih =>
      obtain ⟨⟨ρ, halike⟩, harises, harises'⟩ := ih
      exact ⟨alike_collect halike hrun, harises, harises'.step (.collect hrun)⟩

/-! ### What a host can see -/

/-- The text of a global, if it is defined. -/
def shown (m : Machine) (name : String) : Option (Except Fault String) :=
  (global? m name).map m.heap.display

/-- What two machines keep alive corresponds: a renaming pairs the objects that are reached one
to one, with the same contents, and the globals have paired names and values. -/
structure Corresponds (m : Machine) (ρ : Renaming) (m' : Machine) : Prop where
  oneToOne : ρ.OneToOne
  right : ∀ g, m.heap.Reaches m.rooted g → ∃ h, ρ g h
  left : ∀ h, m'.heap.Reaches m'.rooted h → ∃ g, ρ g h
  objects : ∀ g h, ρ g h → m.heap.Reaches m.rooted g ∧ m'.heap.Reaches m'.rooted h ∧
    ∃ o o', m.heap.object? g = some o ∧ m'.heap.object? h = some o' ∧ o.Alike ρ o'
  globals : Globals.Alike ρ m.globals m'.globals

/-- Machines that a host cannot tell apart: they have printed and reported the same, they have
the same globals with the same texts, and what they keep alive corresponds. -/
structure Indistinct (m m' : Machine) : Prop where
  printout : m'.printout = m.printout
  diagnostics : m'.diagnostics = m.diagnostics
  shown : ∀ name, shown m' name = shown m name
  corresponds : ∃ ρ, Corresponds m ρ m'

/-- A host cannot tell apart machines that differ in their handles only. -/
theorem indistinct_of_alike (alike : m.Alike ρ m') : Indistinct m m' := by
  have hcovers := alike.covers
  have hreached : ∀ g h, ρ g h → m.heap.Reaches m.rooted g → m'.heap.Reaches m'.rooted h :=
    fun g h => alike.heap.reaches_of_pair hcovers
  refine ⟨alike.printout, alike.diagnostics, fun name => ?_,
    fun g h => ρ g h ∧ m.heap.Reaches m.rooted g, ?_⟩
  · have hright : ∀ v, global? m name = some v → ∃ w, global? m' name = some w ∧ v.Alike ρ w := by
      intro v hv
      obtain ⟨g, hg, hglobal⟩ := (global?_eq_some_iff alike.heap.valid.toInterned).mp hv
      obtain ⟨h, w, hpair, hw, hvalue⟩ := alike.globals.right g v hglobal
      obtain ⟨o', ho', halike⟩ := alike.heap.object? hpair hg
      cases halike
      exact ⟨w, (global?_eq_some_iff alike.heap.valid'.toInterned).mpr ⟨h, ho', hw⟩, hvalue⟩
    have hleft : ∀ w, global? m' name = some w → ∃ v, global? m name = some v := by
      intro w hw
      obtain ⟨h, hh, hglobal⟩ := (global?_eq_some_iff alike.heap.valid'.toInterned).mp hw
      obtain ⟨g, v, hpair, hv, -⟩ := alike.globals.left h w hglobal
      obtain ⟨o, o', ho, ho', halike⟩ := alike.heap.objects g h hpair
      obtain rfl := Option.some.inj (ho'.symm.trans hh)
      cases halike
      exact ⟨v, (global?_eq_some_iff alike.heap.valid.toInterned).mpr ⟨g, ho, hv⟩⟩
    unfold Session.shown
    cases hv : global? m name with
    | some v =>
        obtain ⟨w, hw, hvalue⟩ := hright v hv
        rw [hw]
        exact congrArg some (alike.heap.display hvalue)
    | none =>
        cases hw : global? m' name with
        | none => rfl
        | some w =>
            obtain ⟨v, hv'⟩ := hleft w hw
            rw [hv] at hv'
            cases hv'
  · have hglobals : ∀ g v, m.globals[g]? = some v →
        m.heap.Reaches m.rooted g ∧ ∀ f, v = .object f → m.heap.Reaches m.rooted f := by
      intro g v hv
      refine ⟨.root (Machine.mem_rooted.mpr (.inr (.inr (.inr ⟨g, v, hv, .inl rfl⟩)))), ?_⟩
      rintro f rfl
      exact .root (Machine.mem_rooted.mpr (.inr (.inr (.inr ⟨g, _, hv, .inr rfl⟩))))
    refine
      { oneToOne := ⟨fun _ _ _ h h' => alike.heap.oneToOne.right _ _ _ h.1 h'.1,
          fun _ _ _ h h' => alike.heap.oneToOne.left _ _ _ h.1 h'.1⟩
        right := fun g hg => ?_, left := fun h hh => ?_, objects := fun g h hpair => ?_
        globals := ⟨fun g v hv => ?_, fun h w hw => ?_⟩ }
    · obtain ⟨h, hpair, -⟩ := alike.heap.reaches hcovers hg
      exact ⟨h, hpair, hg⟩
    · obtain ⟨g, hpair, hg⟩ := alike.heap.reaches_left hcovers hh
      exact ⟨g, hpair, hg⟩
    · obtain ⟨o, o', ho, ho', halike⟩ := alike.heap.objects g h hpair.1
      exact ⟨hpair.2, hreached g h hpair.1 hpair.2, o, o', ho, ho',
        halike.mono fun c d hcd hc _ => ⟨hcd, hpair.2.child ho hc⟩⟩
    · obtain ⟨h, w, hpair, hw, hvalue⟩ := alike.globals.right g v hv
      obtain ⟨hg, hf⟩ := hglobals g v hv
      exact ⟨h, w, ⟨hpair, hg⟩, hw, hvalue.mono fun f _ hpair' heq _ => ⟨hpair', hf f heq⟩⟩
    · obtain ⟨g, v, hpair, hv, hvalue⟩ := alike.globals.left h w hw
      obtain ⟨hg, hf⟩ := hglobals g v hv
      exact ⟨g, v, ⟨hpair, hg⟩, hv, hvalue.mono fun f _ hpair' heq _ => ⟨hpair', hf f heq⟩⟩

/-- Two runs of a source that end in the same way, with machines that a host cannot tell apart.
One of them may be lost to a threshold that leaves the machine word. -/
inductive Follow : EStateM.Result Fault Machine Outcome →
    EStateM.Result Fault Machine Outcome → Prop
  | same {o : Outcome} {m m' : Machine} : Indistinct m m' → Follow (.ok o m) (.ok o m')
  | first {m : Machine} {other : EStateM.Result Fault Machine Outcome} :
      maxWord < m.heap.bytes * m.heap.policy.growth → Follow (.error .overflow m) other
  | second {m : Machine} {other : EStateM.Result Fault Machine Outcome} :
      maxWord < m.heap.bytes * m.heap.policy.growth → Follow other (.error .overflow m)

/-- Runs that agree and settle follow each other. -/
theorem follow_of_agrees {x y : EStateM.Result Fault Machine Outcome} (agree : Agrees Goes x y)
    (settles : Settles x) : Follow x y := by
  cases agree with
  | ok h =>
      obtain ⟨rfl, ρ, halike⟩ := h
      exact .same (indistinct_of_alike halike)
  | fail h =>
      cases settles with
      | lost hover => exact .first hover
  | first h =>
      obtain ⟨rfl, hover⟩ := h
      exact .first hover
  | second h =>
      obtain ⟨rfl, hover⟩ := h
      exact .second hover

/-- No host can tell when collections strike. Of two machines that have been given the same
sources, at whatever times they have collected, all that can be seen is the same; and they treat
every further source alike. -/
theorem collections_unobservable (twins : Twins m m') :
    Indistinct m m' ∧ ∀ budget source,
      Follow (interpret budget source m) (interpret budget source m') ∧
        Follow (runSource budget source m) (runSource budget source m') := by
  obtain ⟨⟨ρ, halike⟩, harises, -⟩ := twins.alike
  refine ⟨indistinct_of_alike halike, fun budget source => ⟨?_, ?_⟩⟩
  · exact follow_of_agrees (interpret_agrees halike budget source)
      (interpret_settles harises.idle budget source)
  · exact follow_of_agrees (runSource_agrees halike budget source)
      (runSource_settles harises.idle budget source)

/-- A program that joins strings and leaves a closure in a global. -/
def rehearsalSource : String :=
  "var a = \"x\" + \"y\"; fun f() { var b = a; fun g() { return b; } return g; } var h = f();"

/-- Whether a machine with a given policy runs the program to its end and can collect then. -/
def rehearses (policy : Policy) : Bool :=
  match Session.begin { policy } (fun _ => 0) with
  | .ok () m =>
    match interpret 100 rehearsalSource m with
    | .ok .finished m =>
      match collect m with
      | .ok () _ => true
      | .error _ _ => false
    | _ => false
  | .error _ _ => false

/-- The machines of a rehearsal: a new one, the one after the program, and the one after the
collection. -/
theorem exists_of_rehearses {policy : Policy} (rehearsed : rehearses policy = true) :
    ∃ m n k, Session.begin { policy } (fun _ => 0) = .ok () m ∧
      interpret 100 rehearsalSource m = .ok .finished n ∧ collect n = .ok () k := by
  unfold rehearses at rehearsed
  split at rehearsed
  · rename_i m hbegin
    split at rehearsed
    · rename_i n hrun
      split at rehearsed
      · rename_i k hcollect
        exact ⟨m, n, k, hbegin, hrun, hcollect⟩
      · cases rehearsed
    · cases rehearsed
  · cases rehearsed

/-- A machine that collects at every allocation, and once more after the program, cannot be told
apart from one that does not collect at all. -/
theorem collections_unobservable_stress : ∃ m m', Twins m m' ∧ Indistinct m m' ∧
    ∀ budget source, Follow (interpret budget source m) (interpret budget source m') ∧
      Follow (runSource budget source m) (runSource budget source m') := by
  obtain ⟨m, n, k, hbegin, hrun, hcollect⟩ :=
    exists_of_rehearses (show rehearses { stress := true } = true by decide +kernel)
  obtain ⟨m', n', -, hbegin', hrun', -⟩ :=
    exists_of_rehearses (show rehearses {} = true by decide +kernel)
  have twins : Twins k n' :=
    .collectFirst (.interpret (.begin hbegin hbegin' rfl rfl) hrun hrun' (by simp)) hcollect
  exact ⟨k, n', twins, collections_unobservable twins⟩

end Session

end Lox
