import Lox.Proofs.Compile.Independence
import Lox.Proofs.Reference.Opening
import Lox.Proofs.Session.Sharing
import Lox.Proofs.Session.Side

/-!
# Sessions compose

A source that is run to its end and another one after it do the same as both of them at once, with a
newline between them. All that a script leaves to the next one are globals: there are no locals any
more, nothing is left on the stack, and no cell is open.

Both scripts are run by the machine, which mirrors a reference machine, and so is the whole. The
reference machine with the first source and the one with the whole run side by side up to the end of
the first source; and from there the one with the second source and the one with the whole. The
machine itself may collect at different times.

## Main definitions

* `Session.Accepted` — sources that are compiled.
* `Outcome.Like`, `Session.Resembles`, `Session.Concurs` — runs that end alike.

## Main results

* `exists_handover` — how far the whole has come when the first source has been run to its end.
* `concurs_of_handover` — the second source and the whole from there on.
* `session_composes` — a session composes.
-/

namespace Lox

/-- A valid heap is fit for roots that are live. -/
theorem Heap.Valid.fit {heap : Heap} {roots : List Handle} (valid : heap.Valid)
    (live : ∀ h ∈ roots, heap.Live h) : heap.Fit roots :=
  ⟨valid.toOrderly, fun _ hreach => valid.closed.live_of_reaches live hreach,
    fun _ hreach => (valid.closed.live_of_reaches valid.gray_live hreach).inRange⟩

/-- Outcomes that are the same but for the trace of a runtime error. -/
inductive Outcome.Like : Outcome → Outcome → Prop
  | finished : Like .finished .finished
  | failed {e e' : RuntimeError} : e'.cause = e.cause → Like (.failed e) (.failed e')
  | paused : Like .paused .paused

namespace Session

open Machine (Mirrors Echoes Tracks)
open Reference (Common Alongside Proceeds)

variable {m m' m₁ n n' : Machine} {r r' s s' : Reference} {p p' : Picture}
  {π : Matching} {t : Template} {constants : List Constant} {a b source : String}

/-! ### Sources that are accepted -/

/-- A source is **accepted**: it is compiled on a new heap. The heap makes no difference. -/
def Accepted (source : String) : Prop :=
  ∃ policy script heap, compile (.ofSource source) [] (.empty policy) = .ok (.ok script) heap

/-- An accepted source is compiled by every idle machine, unless the machine is lost. -/
theorem Accepted.compiles (accepted : Accepted source) (idle : m.Idle) :
    (∃ t constants, Compiles source m t constants) ∨
      ∃ n, n.heap.Overfull ∧ compileSource source m = .error .overflow n := by
  obtain ⟨policy, script, heap, hrun⟩ := accepted
  have hempty : (Heap.empty policy).Fit [] := (Heap.valid_empty policy).fit (by simp)
  have agree := hempty.compile_agrees (idle.secure.valid.fit idle.secure.live) source
  rw [hrun] at agree
  cases hrun' : compile (.ofSource source) m.rooted m.heap with
  | error f heap' =>
      rw [hrun'] at agree
      cases agree with
      | second hlost =>
          obtain ⟨rfl, hover⟩ := hlost
          exact .inr ⟨_, hover, compileSource_of_error hrun'⟩
  | ok result heap' =>
      rw [hrun'] at agree
      cases agree with
      | ok hsame =>
          cases hsame.2 with
          | @accepted _ h =>
              obtain ⟨-, -, program, t, constants, -, hholds, -⟩ :=
                compile_sound (terminated_ofSource source) idle.secure.valid idle.secure.live hrun'
              exact .inl ⟨t, constants, h, _, compileSource_of_ok hrun', hholds⟩

/-- A source that an idle machine has compiled. -/
theorem Compiles.produces (compiles : Compiles source m t constants) (idle : m.Idle) :
    Produces source t constants := by
  obtain ⟨script, n, hsource, hholds⟩ := compiles
  cases hrun : compile (.ofSource source) m.rooted m.heap with
  | error f heap =>
      rw [compileSource_of_error hrun] at hsource
      cases hsource
  | ok result heap =>
      rw [compileSource_of_ok hrun] at hsource
      cases hsource
      exact ⟨_, _, script, heap, idle.secure.valid, idle.secure.live, hrun, hholds⟩

/-- A source that an idle machine with room for a script has compiled is started, unless the machine
is lost. -/
theorem Compiles.starts (compiles : Compiles source m t constants) (idle : m.Idle)
    (mirrors : Mirrors p m r) (room : 0 < r.stackMax) : t.name = none ∧
      ((∃ n, n.heap.Overfull ∧ ∀ budget, runSource budget source m = .error .overflow n) ∨
        ∃ n p', n.Ready ∧ Mirrors p' n (r.started t constants) ∧
          ∀ budget, runSource budget source m = attempt (Machine.run budget) n) := by
  obtain ⟨program, -, hscript⟩ := compiles.encoded idle
  obtain ⟨script, k, hsource, hholds⟩ := compiles
  rcases compile_total idle.secure.valid idle.secure.live (terminated_ofSource source) with
    ⟨result, heap, hcompile, hvalid, hkeeps, -⟩ | ⟨heap, herror, hover⟩
  swap
  · rw [compileSource_of_error herror] at hsource
    cases hsource
  rw [compileSource_of_ok hcompile] at hsource
  cases hsource
  refine ⟨hscript.name, ?_⟩
  have hmoved := mirrors_move mirrors hkeeps (fun _ h => h) hvalid
  have hends := callScript_compiled idle hcompile
  have hechoes := callScript_tracks hmoved hholds
  have hstart : Reference.start t constants r = .ok () (r.started t constants) :=
    Reference.start_of_room (Array.eq_empty_of_size_eq_zero (by rw [mirrors.size, idle.stack]; rfl))
      (List.forall₂_nil_left_iff.mp (idle.frames ▸ mirrors.frames)) room hscript.arity
  rw [hstart] at hechoes
  have hrun : ∀ budget, runSource budget source m = runScript budget script { m with heap } :=
    fun budget => bind_of_ok (compileSource_of_ok hcompile)
  cases hcall : callScript script { m with heap } with
  | error e n =>
      rw [hcall] at hends hechoes
      cases hends with
      | raised hfair =>
          cases hechoes with
          | broken hbroken => exact absurd hbroken hfair
      | lost hlost =>
          obtain ⟨rfl, hover⟩ := hlost
          refine .inl ⟨n, hover, fun budget => ?_⟩
          rw [hrun, runScript, attempt, bind_of_error hcall]
  | ok u n =>
      rw [hcall] at hends hechoes
      cases hends with
      | ok hready =>
          cases hechoes with
          | ok htracks =>
              obtain ⟨-, p', hmirrors⟩ := htracks
              refine .inr ⟨n, p', hready, hmirrors, fun budget => ?_⟩
              rw [hrun, runScript, attempt, bind_of_ok hcall]
              rfl

/-! ### What a host can see -/

/-- Machines that have printed the same, and that have the same globals with the same texts. -/
structure Resembles (m m' : Machine) : Prop where
  printout : m'.printout = m.printout
  shown : ∀ name, shown m' name = shown m name

/-- Machines that mirror reference machines with the same globals. -/
theorem resembles_of_common (mirrors : Mirrors p m r) (mirrors' : Mirrors p' m' r')
    (common : Common π r r') : Resembles m m' := by
  have hfirst := accords_of_mirrors mirrors
  have hsecond := accords_of_mirrors mirrors'
  refine ⟨?_, fun name => ?_⟩
  · rw [← hsecond.printout, ← hfirst.printout, common.printout]
  · have hshown := hfirst.shown name
    have hshown' := hsecond.shown name
    have hglobals := common.globals name
    generalize shown m name = x at hshown ⊢
    generalize shown m' name = y at hshown' ⊢
    generalize r.globals name = o at hshown hglobals
    generalize r'.globals name = o' at hshown' hglobals
    cases hglobals with
    | none =>
        cases hshown
        cases hshown'
        rfl
    | some hlike =>
        cases hshown with
        | some h =>
            cases hshown' with
            | some h' =>
                obtain ⟨text, rfl, htext⟩ := h
                obtain ⟨text', rfl, htext'⟩ := h'
                rw [common.display hlike, htext] at htext'
                rw [Option.some.inj htext']

/-- Runs that end alike, with machines of which a host sees the same. One of them may be lost to a
threshold that leaves the machine word. -/
inductive Concurs : EStateM.Result Fault Machine Outcome →
    EStateM.Result Fault Machine Outcome → Prop
  | same {o o' : Outcome} {m m' : Machine} : o.Like o' → Resembles m m' →
    Concurs (.ok o m) (.ok o' m')
  | first {m : Machine} {other : EStateM.Result Fault Machine Outcome} : m.heap.Overfull →
      Concurs (.error .overflow m) other
  | second {m : Machine} {other : EStateM.Result Fault Machine Outcome} : m.heap.Overfull →
      Concurs other (.error .overflow m)

/-! ### Runs of the reference machine -/

/-- Two runs of the reference machine that end alike, or of which one gets stuck. -/
abbrev Match : EStateM.Result Fault Reference Outcome →
    EStateM.Result Fault Reference Outcome → Prop :=
  Agree (fun o s o' s' => o.Like o' ∧ ∃ π, Common π s s') (fun _ _ _ _ => False) fun _ _ => True

/-- Runs side by side end alike. -/
theorem concluded_match {F : Passage} {x y : EStateM.Result Interruption Reference Status}
    (alongside : Alongside (Proceeds F) x y) : Match (concluded x) (concluded y) := by
  cases alongside with
  | @ok status _ _ _ h =>
      obtain ⟨rfl, ⟨rfl, π, hbeside⟩ | ⟨rfl, hcommon⟩⟩ := h
      · exact .ok ⟨.paused, π, hbeside.toCommon⟩
      · exact .ok ⟨.finished, hcommon⟩
  | fail h =>
      obtain ⟨cause, trace, trace', π, rfl, rfl, hcommon⟩ := h
      exact .ok ⟨.failed rfl, π, hcommon⟩
  | first h =>
      obtain ⟨f, rfl⟩ := h
      exact .first trivial
  | second h =>
      obtain ⟨f, rfl⟩ := h
      exact .second trivial

/-- Runs that reflect runs of the reference machine that match. -/
theorem concurs_of_match {x y : EStateM.Result Fault Machine Outcome}
    {x' y' : EStateM.Result Fault Reference Outcome} (first : Reflects x x')
    (second : Reflects y y') (matches' : Match x' y') : Concurs x y := by
  cases first with
  | lost h => exact .first h
  | same hm =>
      cases second with
      | lost h => exact .second h
      | same hm' =>
          cases matches' with
          | ok h =>
              obtain ⟨hlike, π, hcommon⟩ := h
              exact .same hlike (resembles_of_common hm hm' hcommon)

/-- A run of the machine that has ended reflects a run that has ended. -/
theorem ended_of_reflects {x : EStateM.Result Fault Machine Outcome} {o : Outcome}
    {y : EStateM.Result Interruption Reference Status} (reflects : Reflects x (concluded y))
    (run : x = .ok o n) (ended : o ≠ .paused) : ∃ u, concluded y = .ok o u ∧
      ∀ s, y ≠ .ok .running s := by
  subst run
  generalize hy : concluded y = y' at reflects
  cases reflects with
  | same =>
      refine ⟨_, rfl, ?_⟩
      rintro s rfl
      cases hy
      exact ended rfl

/-! ### Two sources -/

/-- A machine runs a piece, and the reference machine of the whole goes on from there. -/
theorem match_of_beside {F : Passage} {q : Reference} (ready : m.Ready) (mirrors : Mirrors p m r)
    (beside : Reference.Beside F π r q) (all : F.part.template.code = F.code) (y : Nat) :
    (∃ n, n.heap.Overfull ∧ attempt (Machine.run y) m = .error .overflow n) ∨
      Match (concluded (Reference.run y r)) (concluded (Reference.run y q)) := by
  rcases ready.runs_alongside mirrors beside all y with ⟨f, n, hlost⟩ | halongside
  · have hreflects := attempt_reflects (ready.run y) (Machine.run_tracks ready mirrors y)
    have hrun : attempt (Machine.run y) m = .error f n := by rw [attempt, hlost]
    rw [hrun] at hreflects ⊢
    cases hreflects with
    | lost hover => exact .inl ⟨n, hover, rfl⟩
  · exact .inr (concluded_match halongside)

/-- Where a run has ended, a run that matches it has ended, too. -/
theorem Match.ended {x y : EStateM.Result Interruption Reference Status} {o : Outcome}
    (matches' : Match (concluded x) (concluded y)) (run : concluded x = .ok o s)
    (ended : o ≠ .paused) :
    ∀ u, y ≠ .ok .running u := by
  rintro u rfl
  rw [run] at matches'
  cases matches' with
  | ok h =>
      cases h.1
      exact ended rfl

/-- Where the reference machine with the whole has come to the beginning of a piece or has got
stuck, a machine that runs the whole concurs with one that runs the piece. -/
theorem concurs_of_handover {x j : Nat} (ready : m.Ready) (mirrors : Mirrors p m s)
    (ready' : m'.Ready) (mirrors' : Mirrors p' m' r') (le : j ≤ x)
    (handover : (∃ f u, Reference.run j r' = .error (.fault f) u) ∨
      ∃ q F π, (∀ y, Reference.run (j + y) r' = Reference.run y q) ∧ Reference.Beside F π s q ∧
        F.part.template.code = F.code) :
    (∀ y o n, attempt (Machine.run y) m = .ok o n → o ≠ .paused → ∀ z, x + y ≤ z →
      Concurs (attempt (Machine.run y) m) (attempt (Machine.run z) m')) ∧
    ∀ z o n, attempt (Machine.run z) m' = .ok o n → o ≠ .paused → ∀ y, z ≤ y →
      Concurs (attempt (Machine.run y) m) (attempt (Machine.run z) m') := by
  have hreflects : ∀ y, Reflects (attempt (Machine.run y) m) (concluded (Reference.run y s)) :=
    fun y => attempt_reflects (ready.run y) (Machine.run_tracks ready mirrors y)
  have hreflects' : ∀ z, Reflects (attempt (Machine.run z) m') (concluded (Reference.run z r')) :=
    fun z => attempt_reflects (ready'.run z) (Machine.run_tracks ready' mirrors' z)
  rcases handover with ⟨f, u, hstuck⟩ | ⟨q, F, π, hsame, hbeside, hall⟩
  · have hended : ∀ t, Reference.run j r' ≠ .ok .running t := by
      rw [hstuck]
      rintro t ⟨⟩
    have hmatch : ∀ y z, Reference.run z r' = Reference.run j r' →
        Match (concluded (Reference.run y s)) (concluded (Reference.run z r')) := fun y z h => by
      rw [h, hstuck]
      exact .second trivial
    refine ⟨fun y o n _ _ z hz => ?_, fun z o n hrun hpaused y _ => ?_⟩
    · exact concurs_of_match (hreflects y) (hreflects' z)
        (hmatch y z (Reference.run_unique hended (.inl (by omega))))
    · obtain ⟨-, -, hended'⟩ := ended_of_reflects (hreflects' z) hrun hpaused
      exact concurs_of_match (hreflects y) (hreflects' z)
        (hmatch y z (Reference.run_unique hended (.inr hended')))
  · have hconcurs : ∀ y z, Match (concluded (Reference.run y s)) (concluded (Reference.run y q)) →
        Reference.run z r' = Reference.run (j + y) r' →
        Concurs (attempt (Machine.run y) m) (attempt (Machine.run z) m') := fun y z hmatch h =>
      concurs_of_match (hreflects y) (hreflects' z) (by rwa [h, hsame])
    refine ⟨fun y o n hrun hpaused z hz => ?_, fun z o n hrun hpaused y hy => ?_⟩
    · rcases match_of_beside ready mirrors hbeside hall y with ⟨n, hover, hlost⟩ | hmatch
      · rw [hlost]
        exact .first hover
      · obtain ⟨u, hu, -⟩ := ended_of_reflects (hreflects y) hrun hpaused
        refine hconcurs y z hmatch (Reference.run_unique ?_ (.inl (by omega)))
        rw [hsame]
        exact hmatch.ended hu hpaused
    · rcases match_of_beside ready mirrors hbeside hall y with ⟨n, hover, hlost⟩ | hmatch
      · rw [hlost]
        exact .first hover
      · obtain ⟨-, -, hended⟩ := ended_of_reflects (hreflects' z) hrun hpaused
        exact hconcurs y z hmatch (Reference.run_unique hended (.inl (by omega))).symm

/-- Reporting makes no difference. -/
theorem Concurs.record {y z : Nat} (concurs : Concurs (runSource y b m) (runSource z a m')) :
    Concurs (interpret y b m) (interpret z a m') := by
  unfold interpret
  generalize hx : runSource y b m = first at concurs
  generalize hy : runSource z a m' = second at concurs
  cases concurs with
  | same hlike hresembles =>
      rw [bind_of_ok hx, bind_of_ok hy]
      exact .same hlike ⟨hresembles.printout, hresembles.shown⟩
  | first hover =>
      rw [bind_of_error hx]
      exact .first hover
  | second hover =>
      rw [bind_of_error hy]
      exact .second hover

/-- A source that is run to its end, whether it is accepted or not. -/
theorem Shadows.ran (shadows : Shadows m r) {budget : Nat} {o : Outcome}
    (ran : Ran budget source m o n) (ended : o ≠ .paused) : ∃ s, Shadows n s := by
  obtain ⟨⟨p, hmirrors⟩, harises⟩ := shadows.mirrors
  rcases rejected_or_compiles harises.idle ran with ⟨ds, rfl⟩ | ⟨t, constants, hcompiles⟩
  · exact ⟨r, shadows.rejected ran⟩
  · obtain ⟨s, -, hrun, -⟩ := mirrors_of_accepted harises.idle hmirrors hcompiles ran
    exact ⟨s, shadows.accepted hcompiles ran ended hrun⟩

/-- Every machine with a history has a counterpart among the reference machines. -/
theorem exists_shadows (arises : Arises HostFunction.Equivariant m) : ∃ r, Shadows m r := by
  induction arises with
  | begin hrun => exact ⟨_, .begin hrun⟩
  | step _ hstep ih =>
      obtain ⟨r, hshadows⟩ := ih
      cases hstep with
      | bind hequivariant hrun => exact ⟨_, hshadows.bind hequivariant hrun⟩
      | runSource hrun hended => exact hshadows.ran (.inl hrun) hended
      | interpret hrun hended => exact hshadows.ran (.inr hrun) hended
      | collect hrun => exact ⟨r, hshadows.collect hrun⟩
      | takeOutput hrun => exact ⟨_, hshadows.takeOutput hrun⟩
      | takeDiagnostics hrun => exact ⟨r, hshadows.takeDiagnostics hrun⟩

/-- When a source has been run to its end, the reference machine with the whole has come to the
place where the next piece starts, or it gets stuck before. -/
theorem exists_handover {x : Nat} (idle : m.Idle) (mirrors : Mirrors p m r)
    (run : interpret x a m = .ok .finished m₁) :
    ∃ s p₁, Mirrors p₁ m₁ s ∧ 0 < r.stackMax ∧ 0 < s.stackMax ∧
      ∀ b t₂ ks₂ t ks, Produces b t₂ ks₂ → t₂.name = none → Produces (a ++ "\n" ++ b) t ks →
        ∃ j ≤ x, (∃ f u, Reference.run j (r.started t ks) = .error (.fault f) u) ∨
          ∃ q F π, (∀ y, Reference.run (j + y) (r.started t ks) = Reference.run y q) ∧
            Reference.Beside F π (s.started t₂ ks₂) q ∧ F.part.template.code = F.code := by
  rcases rejected_or_compiles idle (.inr run) with ⟨ds, hrejected⟩ | ⟨t₁, ks₁, first⟩
  · cases hrejected
  obtain ⟨s₁, -, hfinished, -⟩ := mirrors_of_accepted idle mirrors first (.inr run)
  have hroom := Reference.room_of_finished hfinished
  have hstackMax := interpret_stackMax run
  obtain ⟨_, k, hsource, hrecord⟩ := bind_eq_ok_iff.mp run
  cases hrecord
  obtain ⟨hname, ⟨n, -, hlost⟩ | ⟨n, p', hready, hmirrors, hruns⟩⟩ :=
    first.starts idle mirrors hroom
  · rw [hlost] at hsource
    cases hsource
  rw [hruns] at hsource
  have hhalts : Machine.run x n = .ok .halted k := by
    unfold attempt at hsource
    split at hsource
    · rename_i hrun
      cases hsource
      exact hrun
    all_goals cases hsource
  obtain ⟨_, s, hreference, rfl, p₁, hk⟩ := (Machine.run_tracks hready hmirrors x).right hhalts
  have hroom' : 0 < s.stackMax := by
    rw [hk.stackMax, show k.stackMax = m.stackMax from hstackMax, ← mirrors.stackMax]
    exact hroom
  refine ⟨s, p₁, { hk with }, hroom, hroom', fun b t₂ ks₂ t ks second script whole => ?_⟩
  obtain ⟨outline₁, outline₂, code₁, code₂, ks₁', ks₂', hpiece₁, hpiece₂, hcode, rfl⟩ :=
    compile_joined (first.produces idle) second whole
  obtain ⟨F, hbeside, hends, hendless, hfront, haround⟩ :=
    hpiece₁.opens hname ks₂' (hcode.trans (List.append_assoc ..)) mirrors hroom
  obtain ⟨j, hj, hdone⟩ := hready.relays hmirrors hbeside hends hendless hhalts hreference
  refine ⟨j, hj, ?_⟩
  rcases hdone with hstuck | ⟨q, π, hsame, harrives⟩
  · exact .inl hstuck
  · obtain ⟨G, hbeside', hall⟩ := hpiece₂.follows harrives script hfront haround rfl hcode
    exact .inr ⟨q, G, π, hsame, hbeside', hall⟩

/-- A source that is interpreted is run. -/
theorem runSource_of_interpret {budget : Nat} {o : Outcome}
    (run : interpret budget source m = .ok o n) : ∃ k, runSource budget source m = .ok o k := by
  obtain ⟨_, k, hsource, hrecord⟩ := bind_eq_ok_iff.mp run
  cases hrecord
  exact ⟨k, hsource⟩

/-- An accepted source is started by an idle machine with room for a script, unless the machine is
lost. -/
theorem Accepted.starts (accepted : Accepted source) (idle : m.Idle) (mirrors : Mirrors p m r)
    (room : 0 < r.stackMax) :
    (∃ n, n.heap.Overfull ∧ ∀ budget, runSource budget source m = .error .overflow n) ∨
      ∃ t constants n p', Produces source t constants ∧ t.name = none ∧ n.Ready ∧
        Mirrors p' n (r.started t constants) ∧
          ∀ budget, runSource budget source m = attempt (Machine.run budget) n := by
  rcases accepted.compiles idle with ⟨t, constants, hcompiles⟩ | ⟨n, hover, hlost⟩
  · obtain ⟨hname, hlost | ⟨n, p', hready, hmirrors, hruns⟩⟩ := hcompiles.starts idle mirrors room
    · exact .inl hlost
    · exact .inr ⟨t, constants, n, p', hcompiles.produces idle, hname, hready, hmirrors, hruns⟩
  · exact .inl ⟨n, hover, fun budget => bind_of_error hlost⟩

/-- A session composes. A source has been run to its end by a machine with a history. Then another
source does the same as both of them with a newline between them on the machine as it was before: if
one run ends, so does the other one with a large enough budget, in the same way but for lines in the
trace of a runtime error; all that has been printed is the same, and so are the globals and their
texts. -/
theorem session_composes (arises : Arises HostFunction.Equivariant m) (accepted : Accepted b)
    (accepted' : Accepted (a ++ "\n" ++ b)) {x : Nat} (run : interpret x a m = .ok .finished m₁) :
    (∀ y o n, interpret y b m₁ = .ok o n → o ≠ .paused → ∀ z, x + y ≤ z →
      Concurs (interpret y b m₁) (interpret z (a ++ "\n" ++ b) m)) ∧
    ∀ z o n, interpret z (a ++ "\n" ++ b) m = .ok o n → o ≠ .paused → ∀ y, z ≤ y →
      Concurs (interpret y b m₁) (interpret z (a ++ "\n" ++ b) m) := by
  obtain ⟨r, hshadows⟩ := exists_shadows arises
  obtain ⟨⟨p, hmirrors⟩, harises⟩ := hshadows.mirrors
  have hidle := harises.idle
  have hidle₁ := (harises.ran (.inr run) (by simp)).idle
  obtain ⟨s, p₁, hmirrors₁, hroom, hroom₁, hhandover⟩ := exists_handover hidle hmirrors run
  rcases accepted'.starts hidle hmirrors hroom with
    ⟨n, hover, hlost⟩ | ⟨t, ks, n, q, hwhole, -, hready, hstarted, hruns⟩
  · have hconcurs : ∀ y z, Concurs (interpret y b m₁) (interpret z (a ++ "\n" ++ b) m) :=
      fun y z => by
      refine Concurs.record ?_
      rw [hlost]
      exact .second hover
    exact ⟨fun y _ _ _ _ z _ => hconcurs y z, fun z _ _ _ _ y _ => hconcurs y z⟩
  rcases accepted.starts hidle₁ hmirrors₁ hroom₁ with
    ⟨n₂, hover, hlost⟩ | ⟨t₂, ks₂, n₂, q₂, hsecond, hname, hready₂, hstarted₂, hruns₂⟩
  · have hconcurs : ∀ y z, Concurs (interpret y b m₁) (interpret z (a ++ "\n" ++ b) m) :=
      fun y z => by
      refine Concurs.record ?_
      rw [hlost]
      exact .first hover
    exact ⟨fun y _ _ _ _ z _ => hconcurs y z, fun z _ _ _ _ y _ => hconcurs y z⟩
  obtain ⟨j, hj, hdone⟩ := hhandover b t₂ ks₂ t ks hsecond hname hwhole
  obtain ⟨hleft, hright⟩ := concurs_of_handover hready₂ hstarted₂ hready hstarted hj hdone
  refine ⟨fun y o n hrun hpaused z hz => ?_, fun z o n hrun hpaused y hy => ?_⟩
  · obtain ⟨k, hsource⟩ := runSource_of_interpret hrun
    refine Concurs.record ?_
    rw [hruns₂] at hsource ⊢
    rw [hruns]
    exact hleft y o k hsource hpaused z hz
  · obtain ⟨k, hsource⟩ := runSource_of_interpret hrun
    refine Concurs.record ?_
    rw [hruns] at hsource ⊢
    rw [hruns₂]
    exact hright z o k hsource hpaused y hy

/-- A program that leaves a function in a global. -/
def earlierSource : String :=
  "var g = \"a\"; fun f(x) \x7b print g + x; return g; \x7d f(\"b\");"

/-- A program that calls the function of another one and goes wrong. -/
def laterSource : String := "g = \"c\"; var h = f(\"d\"); print missing;"

/-- Whether a new machine runs a source to its end and goes wrong in another one, having printed a
text; and whether it ends when it is given both at once. -/
def composesIn (budget : Nat) (a b text : String) : Bool :=
  match Session.begin {} (fun _ => 0) with
  | .ok () m =>
    match interpret budget a m with
    | .ok .finished n =>
      match interpret budget b n with
      | .ok (.failed _) k =>
        match interpret (budget + budget) (a ++ "\n" ++ b) m with
        | .ok _ _ => k.printout.text == text
        | .error _ _ => false
      | _ => false
    | _ => false
  | .error _ _ => false

/-- Both programs at once go wrong for the same reason, and have printed the same. -/
theorem session_composes_missing : ∃ m m₁ n n' e e', Arises HostFunction.Equivariant m ∧
    Accepted laterSource ∧ Accepted (earlierSource ++ "\n" ++ laterSource) ∧
    interpret 100 earlierSource m = .ok .finished m₁ ∧
    interpret 100 laterSource m₁ = .ok (.failed e) n ∧
    interpret 200 (earlierSource ++ "\n" ++ laterSource) m = .ok (.failed e') n' ∧
    e'.cause = e.cause ∧ n'.printout.text = "ab\ncd\n" ∧ ∀ name, shown n' name = shown n name := by
  have hcomposes : composesIn 100 earlierSource laterSource "ab\ncd\n" = true := by decide +kernel
  have accepted : ∀ source, (script? (compile (.ofSource source) [] (.empty {}))).isSome = true →
      Accepted source := fun source h => by
    obtain ⟨script, hscript⟩ := Option.isSome_iff_exists.mp h
    obtain ⟨heap, hrun⟩ := eq_ok_of_script? hscript
    exact ⟨_, script, heap, hrun⟩
  have second : Accepted laterSource := accepted _ (by decide +kernel)
  have whole : Accepted (earlierSource ++ "\n" ++ laterSource) := accepted _ (by decide +kernel)
  unfold composesIn at hcomposes
  split at hcomposes
  · rename_i m hbegin
    split at hcomposes
    · rename_i m₁ hfirst
      split at hcomposes
      · rename_i e n hsecond
        split at hcomposes
        · rename_i o n' hwhole
          have arises : Arises HostFunction.Equivariant m := .begin hbegin
          have hconcurs := (session_composes arises second whole hfirst).1 100 _ n hsecond (by simp)
            200 (Nat.le_refl _)
          rw [hsecond, hwhole] at hconcurs
          cases hconcurs with
          | same hlike hresembles =>
              cases hlike with
              | failed hcause =>
                  refine ⟨m, m₁, n, n', e, _, arises, second,
                    whole, hfirst, hsecond, hwhole, hcause,
                    ?_, hresembles.shown⟩
                  rw [hresembles.printout]
                  exact beq_iff_eq.mp hcomposes
        · cases hcomposes
      · cases hcomposes
    · cases hcomposes
  · cases hcomposes

end Session

end Lox
