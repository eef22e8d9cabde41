import Lox.Proofs.Machine.Aloof
import Lox.Session

/-!
# The side of the host in a session

A source is compiled and run without a look at the printout, the diagnostics and the limit of the
stack. So a machine with another side of the host does the same with it: it prints the same lines,
reports the same, and ends the same way, unless the stack is full where the other one has room.

## Main definitions

* `Session.Overruns` — an end of a source that a larger limit of the stack could change.

## Main results

* `runSource_beside`, `interpret_beside` — sources.
* `runSource_withLimit`, `interpret_withLimit` — sources, with a larger stack.
* `bind_beside`, `collect_beside` — host functions and collections.
-/

namespace Lox

/-- The side of the host after something has been reported. -/
def Side.reported (side : Side) (text : String) : Side :=
  { side with diagnostics := side.diagnostics ++ text }

open Machine (Aloof Mute Spills beside withDiagnostics)

namespace Session

variable {m m' : Machine}

/-! ### Sources -/

/-- An end of a source that comes of a full stack. -/
def Overruns : EStateM.Result Fault Machine Outcome → Prop
  | .ok (.failed e) _ => e.cause = .stackOverflow
  | .ok _ _ => False
  | .error f _ => f ≠ .overflow

/-- Compiling a source has nothing to do with the side of the host. -/
theorem compileSource_beside (source : String) (side : Side) (m : Machine) :
    compileSource source (beside side m) = onState (beside side) (compileSource source m) := by
  simp only [compileSource, beside]
  cases compile (.ofSource source)
    (Machine.roots m.stack m.frames m.openCells m.globals) m.heap with
  | ok result heap => rfl
  | error f heap => rfl

/-- Starting a script is aloof. -/
theorem callScript_aloof (script : Handle) : Aloof (callScript script) :=
  Aloof.pervasive.callScript script

/-- Seeing how an action ends. -/
theorem attempt_beside {action : Action Status} (aloof : Aloof action) (m : Machine) :
    ∃ lines, ∀ side : Side, m.stackMax ≤ side.stackMax →
      (m.stackMax < side.stackMax → ¬ Overruns (attempt action m)) →
        attempt action (beside side m) =
          onState (beside (side.printed lines)) (attempt action m) := by
  obtain ⟨lines, h⟩ := aloof m
  refine ⟨lines, fun side le fits => ?_⟩
  rcases h side le with ⟨hspills, hlarger⟩ | hsame
  · refine absurd ?_ (fits hlarger)
    unfold attempt
    revert hspills
    rcases action m with ⟨_ | _, _⟩ | ⟨_ | _, _⟩ <;> exact id
  · simp only [attempt, hsame]
    rcases action m with ⟨_ | _, _⟩ | ⟨_ | _, _⟩ <;> rfl

/-- Running a source. -/
theorem runSource_beside (budget : Nat) (source : String) (m : Machine) :
    ∃ lines, ∀ side : Side, m.stackMax ≤ side.stackMax →
      (m.stackMax < side.stackMax → ¬ Overruns (runSource budget source m)) →
        runSource budget source (beside side m) =
          onState (beside (side.printed lines)) (runSource budget source m) := by
  have hcompile := fun side => compileSource_beside source side m
  unfold runSource
  cases hrun : compileSource source m with
  | error f mid =>
      refine ⟨[], fun side _ _ => ?_⟩
      have hcompile := hcompile side
      rw [hrun] at hcompile
      rw [bind_of_error hrun, bind_of_error hcompile]
      rfl
  | ok result mid =>
      cases result with
      | error ds =>
          refine ⟨[], fun side _ _ => ?_⟩
          have hcompile := hcompile side
          rw [hrun] at hcompile
          rw [bind_of_ok hrun, bind_of_ok hcompile]
          rfl
      | ok script =>
          obtain ⟨lines, h⟩ := attempt_beside
            ((callScript_aloof script).bind fun _ => Machine.run_aloof budget) mid
          have hlimit : mid.stackMax = m.stackMax := by
            have hsame := hcompile m.side
            rw [show beside m.side m = m from rfl, hrun] at hsame
            injection hsame with _ hmachine
            rw [hmachine]
            rfl
          refine ⟨lines, fun side le fits => ?_⟩
          have hcompile := hcompile side
          rw [hrun] at hcompile
          rw [bind_of_ok hrun] at fits ⊢
          rw [bind_of_ok hcompile]
          exact h side (hlimit ▸ le) fun lt => fits (hlimit ▸ lt)

/-- Interpreting a source. What is reported is reported whatever the side of the host is. -/
theorem interpret_beside (budget : Nat) (source : String) (m : Machine) :
    ∃ lines text, ∀ side : Side, m.stackMax ≤ side.stackMax →
      (m.stackMax < side.stackMax → ¬ Overruns (interpret budget source m)) →
        interpret budget source (beside side m) =
          onState (beside ((side.printed lines).reported text)) (interpret budget source m) := by
  obtain ⟨lines, h⟩ := runSource_beside budget source m
  unfold interpret
  cases hrun : runSource budget source m with
  | error f mid =>
      refine ⟨lines, "", fun side le fits => ?_⟩
      have hsame := h side le
      rw [hrun] at hsame
      rw [bind_of_error hrun] at fits ⊢
      rw [bind_of_error (hsame fits)]
      simp only [onState, Side.reported, String.append_empty]
  | ok outcome mid =>
      refine ⟨lines, reportText outcome, fun side le fits => ?_⟩
      have hsame := h side le
      rw [hrun] at hsame
      have hfits : m.stackMax < side.stackMax → ¬ Overruns (.ok outcome mid) := fun larger => by
        have hreported := fits larger
        rw [bind_of_ok hrun] at hreported
        cases outcome <;> exact hreported
      rw [bind_of_ok hrun, bind_of_ok (hsame hfits)]
      rfl

/-- What is known of a machine with its own side and with another one tells how the two differ. -/
theorem onState_beside {ε α : Type} {x : EStateM ε Machine α} (effect : Side → Side) (side : Side)
    {change : Machine → Machine}
    (own : x (beside m.side m) = onState (beside (effect m.side)) (x m))
    (other : x (beside side m) = onState (beside (effect side)) (x m))
    (same : ∀ n, beside (effect side) n = change (beside (effect m.side) n)) :
    x (beside side m) = onState change (x m) := by
  rw [other]
  rw [show beside m.side m = m from rfl] at own
  cases hrun : x m with
  | ok a n =>
      rw [hrun] at own
      injection own with _ hmachine
      exact congrArg _ ((same n).trans (congrArg change hmachine.symm))
  | error e n =>
      rw [hrun] at own
      injection own with _ hmachine
      exact congrArg _ ((same n).trans (congrArg change hmachine.symm))

/-- Running a source reports nothing by itself. -/
theorem runSource_mute (budget : Nat) (source : String) : Mute (runSource budget source) := by
  intro m text
  obtain ⟨lines, h⟩ := runSource_beside budget source m
  have hequal : ∀ {p : Prop}, m.stackMax < m.stackMax → p := fun lt => absurd lt (Nat.lt_irrefl _)
  exact onState_beside (·.printed lines) { m.side with diagnostics := text }
    (h _ (Nat.le_refl _) hequal) (h _ (Nat.le_refl _) hequal) fun _ => rfl

/-! ### Other limits -/

/-- A machine with another limit of its stack. -/
def withLimit (limit : Nat) (m : Machine) : Machine := { m with stackMax := limit }

/-- Running a source with a larger stack. -/
theorem runSource_withLimit {budget : Nat} {source : String} {limit : Nat}
    (le : m.stackMax ≤ limit) (fits : ¬ Overruns (runSource budget source m)) :
    runSource budget source (withLimit limit m) =
      onState (withLimit limit) (runSource budget source m) := by
  obtain ⟨lines, h⟩ := runSource_beside budget source m
  exact onState_beside (·.printed lines) { m.side with stackMax := limit }
    (h _ (Nat.le_refl _) fun _ => fits) (h _ le fun _ => fits) fun _ => rfl

/-- Interpreting a source with a larger stack. -/
theorem interpret_withLimit {budget : Nat} {source : String} {limit : Nat}
    (le : m.stackMax ≤ limit) (fits : ¬ Overruns (interpret budget source m)) :
    interpret budget source (withLimit limit m) =
      onState (withLimit limit) (interpret budget source m) := by
  obtain ⟨lines, text, h⟩ := interpret_beside budget source m
  exact onState_beside (fun side => (side.printed lines).reported text)
    { m.side with stackMax := limit } (h _ (Nat.le_refl _) fun _ => fits) (h _ le fun _ => fits)
    fun _ => rfl

/-- What does not look at the side of the host leaves the limit alone. -/
theorem stackMax_of_beside {ε α : Type} {x : EStateM ε Machine α} {a : α} {side : Side}
    (run : x m = .ok a m') (same : x (beside m.side m) = onState (beside side) (x m)) :
    m'.stackMax = side.stackMax := by
  rw [show beside m.side m = m from rfl, run] at same
  injection same with _ hmachine
  rw [hmachine]
  rfl

theorem runSource_stackMax {budget : Nat} {source : String} {outcome : Outcome}
    (run : runSource budget source m = .ok outcome m') : m'.stackMax = m.stackMax := by
  obtain ⟨lines, h⟩ := runSource_beside budget source m
  exact stackMax_of_beside run (h m.side (Nat.le_refl _) fun lt => absurd lt (Nat.lt_irrefl _))

theorem interpret_stackMax {budget : Nat} {source : String} {outcome : Outcome}
    (run : interpret budget source m = .ok outcome m') : m'.stackMax = m.stackMax := by
  obtain ⟨lines, text, h⟩ := interpret_beside budget source m
  exact stackMax_of_beside run (h m.side (Nat.le_refl _) fun lt => absurd lt (Nat.lt_irrefl _))

/-! ### Other calls -/

/-- An operation of the heap has nothing to do with the side of the host. -/
theorem withRoots_beside {α : Type} (operation : List Handle → HeapM α)
    (side : Side) (m : Machine) :
    withRoots operation (beside side m) = onState (beside side) (withRoots operation m) := by
  simp only [withRoots, beside]
  cases operation (Machine.roots m.stack m.frames m.openCells m.globals) m.heap with
  | ok a heap => rfl
  | error f heap => rfl

/-- Making a host function known. The limit of the stack does not apply to it. -/
theorem bind_beside (name : String) (run : HostFunction) (side : Side) (m : Machine) :
    Session.bind name run (beside side m) = onState (beside side) (Session.bind name run m) :=
  bind_onState (withRoots_beside _ side m) fun _ _ => bind_onState rfl fun _ mid =>
    bind_onState (withRoots_beside _ side mid) fun _ _ => rfl

/-- Collecting. -/
theorem collect_beside (side : Side) (m : Machine) :
    Session.collect (beside side m) = onState (beside side) (Session.collect m) :=
  withRoots_beside _ side m

end Session

end Lox
