import Lox.Proofs.Session.Safety
import Lox.Proofs.Session.Side

/-!
# Larger stacks

A session in which no source overflows the stack is the same with every larger stack: each call ends
in the same way, and leaves the same machine but for the limit. So the heap with its threshold and
its tally, the globals, the printout and the diagnostics are the same after every call.

The limit is tested by pushes only. A host function is made known without regard to it, and what an
instruction takes off the stack makes room for what it pushes; neither matters here, since both
machines do the same.

## Main definitions

* `Session.Request`, `Session.serve`, `Session.follow` — calls of a host, and a whole session.
* `Session.Overflowed` — a call that has raised a stack overflow.

## Main results

* `larger_stack_unobservable` — sessions with two limits.
-/

namespace Lox

open Machine (beside)

namespace Session

/-! ### Sessions -/

/-- A call of a host. -/
inductive Request where
  | interpret (budget : Nat) (source : String)
  | runSource (budget : Nat) (source : String)
  | bind (name : String) (run : HostFunction)
  | collect
  | takeOutput
  | takeDiagnostics

/-- What a host is told. -/
inductive Answer where
  | ended (outcome : Outcome)
  | text (text : String)
  | done

/-- Whether the host may make another call. A source that is paused has to be taken up first. -/
def Answer.goesOn : Answer → Bool
  | .ended .paused => false
  | _ => true

/-- Serves one call. -/
def serve : Request → Session Answer
  | .interpret budget source => do return .ended (← Session.interpret budget source)
  | .runSource budget source => do return .ended (← Session.runSource budget source)
  | .bind name run => do
    Session.bind name run
    return .done
  | .collect => do
    Session.collect
    return .done
  | .takeOutput => do return .text (← Session.takeOutput)
  | .takeDiagnostics => do return .text (← Session.takeDiagnostics)

/-- Serves calls one after the other, and gives for each of them the answer with the machine that
it leaves. A fault ends the session, and so does a source that is paused. -/
def follow : List Request → Machine → List (EStateM.Result Fault Machine Answer)
  | [], _ => []
  | request :: later, m =>
    let result := serve request m
    result :: match result with
      | .ok answer m' => if answer.goesOn then follow later m' else []
      | .error _ _ => []

/-- A call that has raised a stack overflow. -/
def Overflowed : EStateM.Result Fault Machine Answer → Prop
  | .ok (.ended (.failed e)) _ => e.cause.kind = .stackOverflow
  | _ => False

variable {m m' : Machine} {request : Request} {limit : Nat}

/-! ### One call -/

/-- The only cause of stack overflows. -/
theorem kind_eq_stackOverflow {cause : Cause} : cause.kind = .stackOverflow ↔
    cause = .stackOverflow := by
  cases cause <;> simp [Cause.kind]

/-- A source that an idle machine runs without an overflow does not overrun. -/
theorem not_overruns {result : EStateM.Result Fault Machine Outcome} (settles : Settles result)
    (calm : ∀ e m', result = .ok (.failed e) m' → e.cause.kind ≠ .stackOverflow) :
    ¬ Overruns result := by
  cases settles with
  | failed _ _ =>
      intro hoverflow
      exact calm _ _ rfl (kind_eq_stackOverflow.mpr hoverflow)
  | finished | rejected | paused => exact id
  | lost _ => exact fun h => h rfl

/-- One call, on a machine with a larger stack. -/
theorem serve_withLimit (idle : m.Idle) (le : m.stackMax ≤ limit)
    (calm : ¬ Overflowed (serve request m)) :
    serve request (withLimit limit m) = onState (withLimit limit) (serve request m) := by
  cases request with
  | interpret budget source =>
      refine bind_onState
        (interpret_withLimit le (not_overruns (interpret_settles idle budget source)
        fun e m' hrun hoverflow => ?_)) fun _ _ => rfl
      rw [serve, bind_of_ok hrun] at calm
      exact calm hoverflow
  | runSource budget source =>
      refine bind_onState
        (runSource_withLimit le (not_overruns (runSource_settles idle budget source)
        fun e m' hrun hoverflow => ?_)) fun _ _ => rfl
      rw [serve, bind_of_ok hrun] at calm
      exact calm hoverflow
  | bind name run =>
      exact bind_onState (onState_beside id { m.side with stackMax := limit }
        (bind_beside name run _ m) (bind_beside name run _ m) fun _ => rfl) fun _ _ => rfl
  | collect =>
      exact bind_onState (onState_beside id { m.side with stackMax := limit }
        (collect_beside _ m) (collect_beside _ m) fun _ => rfl) fun _ _ => rfl
  | takeOutput | takeDiagnostics => rfl

/-- A call leaves an idle machine idle unless it pauses, and never changes the limit. -/
theorem serve_idle (idle : m.Idle) (conforms : ∀ name run, request = .bind name run → run.Conforms)
    {answer : Answer} (run : serve request m = .ok answer m') (goesOn : answer.goesOn = true) :
    m'.Idle ∧ m'.stackMax = m.stackMax := by
  have hsettled : ∀ {outcome : Outcome}, Settles (.ok outcome m') →
      (Answer.ended outcome).goesOn = true → m'.Idle := fun hsettles hgoes => by
    cases hsettles with
    | finished hidle | rejected hidle | failed _ hidle => exact hidle
    | paused => cases hgoes
  cases request with
  | interpret budget source =>
      obtain ⟨outcome, mid, hrun, hdone⟩ := bind_eq_ok_iff.mp run
      cases hdone
      exact ⟨hsettled (hrun ▸ interpret_settles idle budget source) goesOn, interpret_stackMax hrun⟩
  | runSource budget source =>
      obtain ⟨outcome, mid, hrun, hdone⟩ := bind_eq_ok_iff.mp run
      cases hdone
      exact ⟨hsettled (hrun ▸ runSource_settles idle budget source) goesOn, runSource_stackMax hrun⟩
  | bind name host =>
      obtain ⟨_, mid, hrun, hdone⟩ := bind_eq_ok_iff.mp run
      cases hdone
      refine ⟨?_, stackMax_of_beside hrun (bind_beside name host m.side m)⟩
      rcases bind_spec idle name (conforms name host rfl) with ⟨_, hok, hidle⟩ | ⟨_, herror, -⟩
      · cases hrun.symm.trans hok
        exact hidle
      · cases hrun.symm.trans herror
  | collect =>
      obtain ⟨_, mid, hrun, hdone⟩ := bind_eq_ok_iff.mp run
      cases hdone
      refine ⟨?_, stackMax_of_beside hrun (collect_beside m.side m)⟩
      rcases collect_spec idle with ⟨_, hok, hidle⟩ | ⟨_, herror, -⟩
      · cases hrun.symm.trans hok
        exact hidle
      · cases hrun.symm.trans herror
  | takeOutput | takeDiagnostics =>
      cases run
      exact ⟨{ idle with }, rfl⟩

/-! ### Whole sessions -/

/-- Every call of a session, on a machine with a larger stack. -/
theorem follow_withLimit {requests : List Request} (idle : m.Idle) (le : m.stackMax ≤ limit)
    (conforms : ∀ name run, .bind name run ∈ requests → run.Conforms)
    (calm : ∀ result ∈ follow requests m, ¬ Overflowed result) :
    follow requests (withLimit limit m) = (follow requests m).map (onState (withLimit limit)) := by
  induction requests generalizing m with
  | nil => rfl
  | cons request later ih =>
      have hserve := serve_withLimit idle le (calm _ (List.mem_cons_self ..))
      simp only [follow, hserve, List.map_cons, List.cons.injEq, true_and]
      cases hrun : serve request m with
      | error f n => rfl
      | ok answer n =>
          simp only [onState]
          by_cases hgoes : answer.goesOn = true
          · obtain ⟨hidle, hlimit⟩ := serve_idle idle
              (fun name run h => conforms name run (h ▸ List.mem_cons_self ..)) hrun hgoes
            rw [if_pos hgoes, if_pos hgoes]
            refine ih hidle (hlimit ▸ le)
              (fun name run h => conforms name run (List.mem_cons_of_mem _ h)) fun result hmem => ?_
            refine calm result (List.mem_cons_of_mem _ ?_)
            simpa only [hrun, if_pos hgoes] using hmem
          · rw [if_neg hgoes, if_neg hgoes]
            rfl

/-- A larger stack never changes a session. Where no call overflows the stack of a new machine, a
new machine with a larger stack gives the same answers to the same calls, and after each of them it
is the same machine but for the limit: it has printed and reported the same, its globals and its
heap are the same, and so are the threshold of its collector and all that has been counted. -/
theorem larger_stack_unobservable {settings : Settings} {clock : Nat → Float}
    {requests : List Request} (le : settings.stackMax ≤ limit) (fits : slotBytes * limit ≤ maxBlock)
    (begins : Session.begin settings clock = .ok () m)
    (conforms : ∀ name run, .bind name run ∈ requests → run.Conforms)
    (calm : ∀ result ∈ follow requests m, ¬ Overflowed result) :
    Session.begin { settings with stackMax := limit } clock = .ok () (withLimit limit m) ∧
      follow requests (withLimit limit m) =
        (follow requests m).map (onState (withLimit limit)) := by
  have hidle := idle_of_begin begins
  unfold Session.begin at begins
  dsimp only at begins
  split at begins
  · cases begins
  · have hlimit : m.stackMax = settings.stackMax :=
      stackMax_of_beside begins (bind_beside "clock" clockFunction _ _)
    refine ⟨?_, follow_withLimit hidle (hlimit ▸ le) conforms calm⟩
    have hlarger : Session.bind "clock" clockFunction (withLimit limit (blank settings clock)) =
        onState (withLimit limit) (Session.bind "clock" clockFunction (blank settings clock)) :=
      onState_beside id { (blank settings clock).side with stackMax := limit }
        (bind_beside _ _ _ _) (bind_beside _ _ _ _) fun _ => rfl
    rw [begins] at hlarger
    exact (if_neg (Nat.not_lt.mpr fits)).trans hlarger

/-! ### A session that fills its stack -/

/-- The first argument of a call. -/
def firstArgument : HostFunction := fun _ arguments => arguments[0]?.getD .nil

theorem firstArgument_conforms : firstArgument.Conforms := by
  intro reading arguments h hresult
  unfold firstArgument at hresult
  cases hfirst : arguments[0]? with
  | none =>
      rw [hfirst] at hresult
      cases hresult
  | some v =>
      rw [hfirst, Option.getD_some] at hresult
      exact hresult ▸ Array.mem_toList_iff.mpr (Array.mem_of_getElem? hfirst)

/-- Calls of a host that makes a function known and runs a program that calls itself. The second
program is stopped, but not for want of room. -/
def deepRequests : List Request :=
  [.bind "first" firstArgument,
    .interpret 200 "fun f(b) { if (b) return f(!b); return nil; } print first(f(true));",
    .takeOutput, .collect, .interpret 200 "print f(false); print g;", .takeDiagnostics]

/-- Whether no call of a session overflows the stack of a new machine, and all calls are served. -/
def fitsIn (limit : Nat) (requests : List Request) : Bool :=
  match Session.begin { stackMax := limit } (fun _ => 0) with
  | .error _ _ => false
  | .ok () m =>
    (follow requests m).length = requests.length && (follow requests m).all fun
      | .ok (.ended (.failed e)) _ => e.cause.kind ≠ .stackOverflow
      | _ => true

/-- Seven slots are enough for these calls, so they are served alike with many more. -/
theorem larger_stack_unobservable_seven : ∃ m,
    Session.begin { stackMax := 7 } (fun _ => 0) = .ok () m ∧
    (follow deepRequests m).length = 6 ∧
    Session.begin {} (fun _ => 0) = .ok () (withLimit 16384 m) ∧
      follow deepRequests (withLimit 16384 m) =
        (follow deepRequests m).map (onState (withLimit 16384)) := by
  have fits : fitsIn 7 deepRequests = true := by decide +kernel
  unfold fitsIn at fits
  split at fits
  · cases fits
  · rename_i m begins
    rw [Bool.and_eq_true, decide_eq_true_eq, List.all_eq_true] at fits
    refine ⟨m, begins, fits.1, larger_stack_unobservable (by decide) (by decide) begins ?_ ?_⟩
    · intro name run hmem
      obtain ⟨-, rfl⟩ : name = "first" ∧ run = firstArgument := by simpa [deepRequests] using hmem
      exact firstArgument_conforms
    · intro result hmem hoverflow
      have hcalm := fits.2 result hmem
      unfold Overflowed at hoverflow
      split at hoverflow
      · simp [hoverflow] at hcalm
      · exact hoverflow

end Session

end Lox
