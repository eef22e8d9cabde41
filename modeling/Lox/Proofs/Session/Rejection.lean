import Lox.Proofs.Session.Side
import Lox.Proofs.Session.Twins
import Lox.Proofs.Session.Vacancy

/-!
# Rejected sources

A source that does not compile changes nothing but the heap and the diagnostics. What it leaves in
the heap is garbage: names that were interned, and functions that were begun. It may also have
moved the next collection and the handles that are free. None of this can be seen later on: the
machine treats all further sources as if the rejected one had never been given.

## Main definitions

* `Session.interpretAll` — several sources, one after the other.
* `Session.Unmoved` — two sessions that differ by one report only.

## Main results

* `rejected_leaves_no_trace` — rejected sources.
-/

namespace Lox

open Machine (withDiagnostics)

namespace Session

variable {m m' n : Machine} {ρ : Renaming}

/-! ### Diagnostics do not matter -/

/-- Interpreting a source adds to the diagnostics, whatever they are. -/
theorem interpret_withDiagnostics {budget : Nat} {source : String} {outcome : Outcome}
    (text : String) (run : interpret budget source m = .ok outcome m') :
    m'.diagnostics = m.diagnostics ++ reportText outcome ∧
      interpret budget source (withDiagnostics text m) =
        .ok outcome (withDiagnostics (text ++ reportText outcome) m') := by
  obtain ⟨_, mid, hrun, hrest⟩ := bind_eq_ok_iff.mp run
  have hmute := runSource_mute budget source m text
  rw [hrun] at hmute
  cases hrest
  refine ⟨?_, ?_⟩
  · rw [← (runSource_mute budget source).diagnostics hrun]
  · rw [interpret, bind_of_ok hmute]
    rfl

/-- A source that is lost is lost whatever the diagnostics are. -/
theorem interpret_withDiagnostics_of_error {budget : Nat} {source text : String} {f : Fault}
    (run : interpret budget source m = .error f m') :
    interpret budget source (withDiagnostics text m) = .error f (withDiagnostics text m') := by
  have hmute := runSource_mute budget source m text
  cases hrun : runSource budget source m with
  | ok outcome mid =>
      rw [interpret, bind_of_ok hrun] at run
      cases run
  | error f mid =>
      rw [interpret, bind_of_error hrun] at run
      cases run
      rw [hrun] at hmute
      exact bind_of_error hmute

/-! ### Several sources -/

/-- Interprets sources one after the other, each with its budget. A source that is paused is the
last one, since no other one may start before it ends. -/
def interpretAll : List (Nat × String) → Session (List Outcome)
  | [] => return []
  | (budget, source) :: later => do
    match ← interpret budget source with
    | .paused => return [.paused]
    | outcome => return outcome :: (← interpretAll later)

/-- How two sessions compare that have been given the same sources, where the second one has made
a report that the first one has not: the sources end in the same way, and but for that report, which
stands where it was made, a host cannot tell the machines apart. One of them may be lost to a
threshold that leaves the machine word. -/
inductive Unmoved (before report : String) : EStateM.Result Fault Machine (List Outcome) →
    EStateM.Result Fault Machine (List Outcome) → Prop
  | same {outcomes : List Outcome} {m m' : Machine} (later : String) :
      m.diagnostics = before ++ later → m'.diagnostics = before ++ report ++ later →
      Indistinct m (withDiagnostics m.diagnostics m') →
      Unmoved before report (.ok outcomes m) (.ok outcomes m')
  | first {m : Machine} {other : EStateM.Result Fault Machine (List Outcome)} :
      maxWord < m.heap.bytes * m.heap.policy.growth →
      Unmoved before report (.error .overflow m) other
  | second {m : Machine} {other : EStateM.Result Fault Machine (List Outcome)} :
      maxWord < m.heap.bytes * m.heap.policy.growth →
      Unmoved before report other (.error .overflow m)

/-- One more source has ended before. -/
theorem Unmoved.cons {before report : String} {x y : Session (List Outcome)}
    (unmoved : Unmoved before report (x m) (y m')) (outcome : Outcome) :
    Unmoved before report ((x >>= fun outcomes => pure (outcome :: outcomes)) m)
      ((y >>= fun outcomes => pure (outcome :: outcomes)) m') := by
  simp only [Bind.bind, EStateM.bind]
  revert unmoved
  generalize x m = left
  generalize y m' = right
  intro unmoved
  cases unmoved with
  | same text hfirst hsecond hindistinct => exact .same text hfirst hsecond hindistinct
  | first hover => exact .first hover
  | second hover => exact .second hover

/-- Machines that are alike but for a report treat all further sources alike. -/
theorem interpretAll_unmoved {before report text : String} (idle : m.Idle)
    (alike : m.Alike ρ (withDiagnostics m.diagnostics m'))
    (first : m.diagnostics = before ++ text) (second : m'.diagnostics = before ++ report ++ text)
    (later : List (Nat × String)) :
    Unmoved before report (interpretAll later m) (interpretAll later m') := by
  induction later generalizing m m' ρ text with
  | nil => exact .same text first second (indistinct_of_alike alike)
  | cons request later ih =>
      obtain ⟨budget, source⟩ := request
      have hagrees := interpret_agrees alike budget source
      have hsettles := interpret_settles idle budget source
      simp only [interpretAll]
      cases hrun : interpret budget source m with
      | error f n =>
          rw [bind_of_error hrun]
          rw [hrun] at hsettles
          cases hsettles with
          | lost hover => exact .first hover
      | ok outcome n =>
          rw [hrun] at hagrees hsettles
          rw [bind_of_ok hrun]
          cases hrun' : interpret budget source m' with
          | error f n' =>
              rw [interpret_withDiagnostics_of_error hrun'] at hagrees
              rw [bind_of_error hrun']
              cases hagrees with
              | second hlost =>
                  obtain ⟨rfl, hover⟩ := hlost
                  exact .second hover
          | ok outcome' n' =>
              obtain ⟨hsecond, hmute⟩ := interpret_withDiagnostics m.diagnostics hrun'
              obtain ⟨hfirst, -⟩ := interpret_withDiagnostics m.diagnostics hrun
              rw [hmute] at hagrees
              rw [bind_of_ok hrun']
              cases hagrees with
              | ok hgoes =>
              obtain ⟨rfl, ρ', hnext⟩ := hgoes
              rw [← hfirst] at hnext
              rw [first, String.append_assoc] at hfirst
              rw [second, String.append_assoc] at hsecond
              -- a source that has ended leaves the first machine idle
              cases hsettles with
              | paused => exact .same _ hfirst hsecond (indistinct_of_alike hnext)
              | finished hidle | rejected hidle | failed _ hidle =>
                  exact (ih hidle hnext hfirst hsecond).cons _

/-! ### The rejected source -/

/-- A machine with a history is its own twin. -/
theorem Arises.twins (arises : Arises HostFunction.Equivariant m) : Twins m m := by
  induction arises with
  | begin hrun => exact .begin hrun hrun rfl rfl
  | step _ hstep ih =>
      cases hstep with
      | bind hequivariant hrun => exact .bind ih hequivariant hrun hrun
      | runSource hrun hended => exact .runSource ih hrun hrun hended
      | interpret hrun hended => exact .interpret ih hrun hrun hended
      | collect hrun => exact (Twins.collectFirst ih hrun).collectSecond hrun
      | takeOutput hrun => exact .takeOutput ih hrun hrun
      | takeDiagnostics hrun => exact .takeDiagnostics ih hrun hrun

/-- A rejected source changes the heap and the diagnostics only, and leaves in the heap all that
was reached. -/
theorem rejected_keeps (idle : m.Idle) {budget : Nat} {source : String} {ds : List Diagnostic}
    (run : interpret budget source m = .ok (.rejected ds) m') :
    m' = { m with
      heap := m'.heap, diagnostics := m.diagnostics ++ reportText (.rejected ds) } ∧
      m'.heap.Valid ∧ m.heap.Keeps m.rooted m'.heap := by
  obtain ⟨_, mid, hrun, hrest⟩ := bind_eq_ok_iff.mp run
  cases hrest
  rcases compile_total idle.secure.valid idle.secure.live (terminated_ofSource source) with
    ⟨result, heap, hcompile, hvalid, hkeeps, -⟩ | ⟨heap, herror, -⟩
  · rw [runSource, bind_of_ok (compileSource_of_ok hcompile)] at hrun
    cases result with
    | error _ =>
        cases hrun
        exact ⟨rfl, hvalid, hkeeps⟩
    | ok script =>
        simp only [runScript, attempt] at hrun
        split at hrun <;> cases hrun
  · rw [runSource, bind_of_error (compileSource_of_error herror)] at hrun
    cases hrun

/-- A source that does not compile leaves no trace. It changes nothing of the machine but the heap
and the diagnostics; whatever the globals keep alive keeps its handle and its contents, although
collections may run meanwhile; and all sources that are interpreted later on end, print, report
and show as if it had never been given. -/
theorem rejected_leaves_no_trace (arises : Arises HostFunction.Equivariant m) {budget : Nat}
    {source : String} {ds : List Diagnostic}
    (run : interpret budget source m = .ok (.rejected ds) m') :
    m' = { m with
      heap := m'.heap, diagnostics := m.diagnostics ++ reportText (.rejected ds) } ∧
      (∀ h, Kept m h → ∃ o, m.heap.object? h = some o ∧ m'.heap.object? h = some o) ∧
      ∀ later, Unmoved m.diagnostics (reportText (.rejected ds)) (interpretAll later m)
        (interpretAll later m') := by
  obtain ⟨⟨ρ, halike⟩, hconforms, -⟩ := arises.twins.alike
  have hidle := hconforms.idle
  obtain ⟨heq, hvalid, hkeeps⟩ := rejected_keeps hidle run
  refine ⟨heq, fun h hkept => ?_, fun later => ?_⟩
  · have hreach := (kept_iff arises.vacant h).mp hkept
    obtain ⟨o, ho⟩ := hidle.secure.live_of_reaches hreach
    exact ⟨o, ho, hkeeps h o hreach ho⟩
  · have honward := halike.heap.keepSecond halike.covers hkeeps hvalid
    have hsame : withDiagnostics m.diagnostics m' = { m with heap := m'.heap } :=
      congrArg (withDiagnostics m.diagnostics) heq
    have hnext := halike.move honward halike.obliging
    refine interpretAll_unmoved hidle (hsame ▸ hnext) String.append_empty.symm ?_ later
    rw [heq, String.append_empty]

/-- Whether a new machine rejects a source. -/
def rejects (source : String) : Bool :=
  match Session.begin {} (fun _ => 0) with
  | .ok () m =>
    match interpret 0 source m with
    | .ok (.rejected _) _ => true
    | _ => false
  | .error _ _ => false

/-- A machine that has rejected a source, which mentions new names and begins a function. -/
theorem rejected_leaves_no_trace_function :
    ∃ m ds m', Session.begin {} (fun _ => 0) = .ok () m ∧
      interpret 0 "fun f() \x7b print \"x\" + ; \x7d" m = .ok (.rejected ds) m' ∧
      m' = { m with
        heap := m'.heap, diagnostics := m.diagnostics ++ reportText (.rejected ds) } ∧
      (∀ h, Kept m h → ∃ o, m.heap.object? h = some o ∧ m'.heap.object? h = some o) ∧
      ∀ later, Unmoved m.diagnostics (reportText (.rejected ds)) (interpretAll later m)
        (interpretAll later m') := by
  have rejected : rejects "fun f() \x7b print \"x\" + ; \x7d" = true := by decide +kernel
  unfold rejects at rejected
  split at rejected
  · rename_i m hbegin
    split at rejected
    · rename_i ds m' run
      have arises : Arises HostFunction.Equivariant m := .begin hbegin
      exact ⟨m, ds, m', hbegin, run, rejected_leaves_no_trace arises run⟩
    · cases rejected
  · cases rejected

end Session

end Lox
