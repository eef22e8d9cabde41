import Lox.Proofs.Machine.Printing
import Lox.Proofs.Session.Capacity

/-!
# What a session prints

A session is the same with every capacity of its printout: each call ends in the same way, and
leaves the same machine but for the printout. So the diagnostics, the globals and the heap with all
that has been counted of it are the same after every call.

The printout itself follows from the lines that have been printed since it was last taken. They are
gone through in order, and a line is kept exactly when it still fits with its newline. A short line
may thus be kept behind a longer one that was dropped.

The two runs are not compared with each other. Each of them is compared with a run of the machine
whose printout is what is left of the lines printed so far, and this printout is carried through the
calls.

## Main definitions

* `Printout.kept`, `Printout.Holds` — what is left of some lines.
* `Session.sourceLines` — the lines that a source prints.
* `Session.Call`, `Session.calls` — the calls of a session, with the lines that are to be taken.
* `Call.Alike`, `Call.Holds` — calls that differ in the printout only, and what the printout is.

## Main results

* `Printout.holds_writeLines` — lines written to an empty printout.
* `runSource_reprint`, `interpret_reprint` — sources on a machine with another printout.
* `capacity_unobservable` — sessions with two capacities.
-/

namespace Lox

/-! ### Lines that are kept -/

namespace Printout

/-- The lines that are kept where so many bytes are free: each line exactly when it still fits with
its newline. -/
def kept : (room : Nat) → List String → List String
  | _, [] => []
  | room, line :: lines =>
    if line.utf8ByteSize + 1 ≤ room then line :: kept (room - (line.utf8ByteSize + 1)) lines
    else kept room lines

/-- Lines as one text, each of them ended by a newline. -/
def ended (lines : List String) : String := String.join (lines.map (· ++ "\n"))

/-- A printout that holds what is kept of some lines. -/
structure Holds (capacity : Nat) (lines : List String) (p : Printout) : Prop where
  /-- The text consists of whole lines. -/
  text : p.text = ended (kept capacity lines)
  /-- They are in order. -/
  inOrder : (kept capacity lines).Sublist lines
  size : p.text.utf8ByteSize ≤ capacity
  /-- The flag tells whether some line was dropped. -/
  truncated : p.truncated = true ↔ kept capacity lines ≠ lines

variable {room : Nat} {lines : List String}

theorem kept_sublist (room : Nat) (lines : List String) :
    (kept room lines).Sublist lines := by
  induction lines generalizing room with
  | nil => exact .slnil
  | cons line lines ih =>
      rw [kept]
      split
      · exact (ih _).cons_cons line
      · exact (ih _).cons line

/-- Not all lines are kept if one of them is dropped. -/
theorem kept_ne_cons (room : Nat) (line : String) (lines : List String) :
    kept room lines ≠ line :: lines := by
  intro heq
  have hlength := (kept_sublist room lines).length_le
  rw [heq, List.length_cons] at hlength
  omega

theorem ended_cons (line : String) (lines : List String) :
    ended (line :: lines) = line ++ "\n" ++ ended lines := String.join_cons

theorem size_ended_cons (line : String) (lines : List String) :
    (ended (line :: lines)).utf8ByteSize = line.utf8ByteSize + 1 + (ended lines).utf8ByteSize := by
  rw [ended_cons, String.utf8ByteSize_append, String.utf8ByteSize_append]
  rfl

/-- What is kept fits. -/
theorem size_kept_le (room : Nat) (lines : List String) :
    (ended (kept room lines)).utf8ByteSize ≤ room := by
  induction lines generalizing room with
  | nil => exact Nat.zero_le room
  | cons line lines ih =>
      rw [kept]
      split
      · have := ih (room - (line.utf8ByteSize + 1))
        rw [size_ended_cons]
        omega
      · exact ih room

/-- Lines written to a printout that is not overfull are kept by the room that is left. -/
theorem writeLines_eq (p : Printout) (lines : List String)
    (fits : p.text.utf8ByteSize ≤ p.capacity) :
    (p.writeLines lines).text = p.text ++ ended (kept (p.capacity - p.text.utf8ByteSize) lines) ∧
      (p.writeLines lines).capacity = p.capacity ∧
      ((p.writeLines lines).truncated = true ↔
        p.truncated = true ∨ kept (p.capacity - p.text.utf8ByteSize) lines ≠ lines) := by
  induction lines generalizing p with
  | nil => simp [kept, ended]
  | cons line lines ih =>
      have hwrite : p.writeLines (line :: lines) = (p.writeLine line).writeLines lines := rfl
      rw [hwrite, kept]
      by_cases hroom : line.utf8ByteSize + 1 ≤ p.capacity - p.text.utf8ByteSize
      · have hline : p.writeLine line = { p with text := p.text ++ line ++ "\n" } :=
          if_neg (by omega)
        have hsize : (p.text ++ line ++ "\n").utf8ByteSize =
            p.text.utf8ByteSize + (line.utf8ByteSize + 1) := by
          rw [String.utf8ByteSize_append, String.utf8ByteSize_append, Nat.add_assoc]
          rfl
        obtain ⟨htext, hcapacity, htruncated⟩ := ih { p with text := p.text ++ line ++ "\n" }
          (by simp only [hsize]; omega)
        simp only [hsize, Nat.sub_add_eq] at htext htruncated
        rw [hline, if_pos hroom, htext, hcapacity, htruncated, ended_cons]
        simp [String.append_assoc, Nat.sub_add_eq]
      · have hline : p.writeLine line = { p with truncated := true } := if_pos (by omega)
        obtain ⟨htext, hcapacity, htruncated⟩ := ih { p with truncated := true } fits
        rw [hline, if_neg hroom, htext, hcapacity, htruncated]
        exact ⟨rfl, rfl, by simp [kept_ne_cons]⟩

/-- Lines written to an empty printout. -/
theorem holds_writeLines (capacity : Nat) (lines : List String) :
    Holds capacity lines (writeLines { capacity } lines) := by
  obtain ⟨htext, -, htruncated⟩ := writeLines_eq { capacity } lines (Nat.zero_le _)
  have htext' : (writeLines { capacity } lines).text = ended (kept capacity lines) := by
    simpa using htext
  refine ⟨htext', kept_sublist _ _, ?_, ?_⟩
  · rw [htext']
    exact size_kept_le _ _
  · simpa using htruncated

end Printout

open Machine (Quiet reprint)

namespace Session

variable {m m' : Machine}

/-! ### Sources -/

/-- The lines that a source prints. -/
def sourceLines (budget : Nat) (source : String) (m : Machine) : List String :=
  match compileSource source m with
  | .ok (.ok script) m =>
    match callScript script m with
    | .ok _ m => m.runLines budget
    | .error _ _ => []
  | _ => []

theorem compileSource_reprint (source : String) (p : Printout) (m : Machine) :
    compileSource source (reprint p m) = onState (reprint p) (compileSource source m) := by
  simp only [compileSource, reprint]
  cases compile (.ofSource source)
    (Machine.roots m.stack m.frames m.openCells m.globals) m.heap with
  | ok result heap => rfl
  | error f heap => rfl

/-- Starting a script prints nothing. -/
theorem callScript_quiet (script : Handle) : Quiet (callScript script) :=
  Quiet.pervasive.callScript script

/-- Seeing how an action ends. -/
theorem attempt_reprint {action : Action Status} {p q : Printout}
    (same : action (reprint p m) = onState (reprint q) (action m)) :
    attempt action (reprint p m) = onState (reprint q) (attempt action m) := by
  simp only [attempt, same]
  rcases action m with ⟨_ | _, _⟩ | ⟨_ | _, _⟩ <;> rfl

/-- Running a source on a machine with another printout. -/
theorem runSource_reprint (budget : Nat) (source : String) (m : Machine) (p : Printout) :
    runSource budget source (reprint p m) =
      onState (reprint (p.writeLines (sourceLines budget source m)))
        (runSource budget source m) := by
  have hcompile := compileSource_reprint source p m
  unfold runSource sourceLines
  cases hrun : compileSource source m with
  | error f mid =>
      rw [hrun] at hcompile
      rw [bind_of_error hrun, bind_of_error hcompile]
      rfl
  | ok result mid =>
      rw [hrun] at hcompile
      rw [bind_of_ok hrun, bind_of_ok hcompile]
      cases result with
      | error ds => rfl
      | ok script =>
          refine attempt_reprint ?_
          have hcall := callScript_quiet script mid p
          dsimp only
          cases hstart : callScript script mid with
          | error i last =>
              rw [hstart] at hcall
              rw [bind_of_error hstart, bind_of_error hcall]
              rfl
          | ok u last =>
              rw [hstart] at hcall
              rw [bind_of_ok hstart, bind_of_ok hcall]
              exact Machine.run_reprint budget last p

/-- Interpreting a source on a machine with another printout. -/
theorem interpret_reprint (budget : Nat) (source : String) (m : Machine) (p : Printout) :
    interpret budget source (reprint p m) =
      onState (reprint (p.writeLines (sourceLines budget source m)))
        (interpret budget source m) := by
  have hsame := runSource_reprint budget source m p
  unfold interpret
  cases hrun : runSource budget source m with
  | error f mid =>
      rw [hrun] at hsame
      rw [bind_of_error hrun, bind_of_error hsame]
      rfl
  | ok outcome mid =>
      rw [hrun] at hsame
      rw [bind_of_ok hrun, bind_of_ok hsame]
      rfl

/-- What a source prints does not depend on the printout. -/
theorem sourceLines_reprint (budget : Nat) (source : String) (m : Machine) (p : Printout) :
    sourceLines budget source (reprint p m) = sourceLines budget source m := by
  unfold sourceLines
  rw [compileSource_reprint]
  cases compileSource source m with
  | error f mid => rfl
  | ok result mid =>
      cases result with
      | error ds => rfl
      | ok script =>
          simp only [onState, callScript_quiet script mid p]
          cases callScript script mid with
          | error i last => rfl
          | ok u last => exact Machine.runLines_reprint budget last p

/-! ### Other calls -/

theorem withRoots_reprint {α : Type} (operation : List Handle → HeapM α) (p : Printout)
    (m : Machine) :
    withRoots operation (reprint p m) = onState (reprint p) (withRoots operation m) := by
  simp only [withRoots, reprint]
  cases operation (Machine.roots m.stack m.frames m.openCells m.globals) m.heap with
  | ok a heap => rfl
  | error f heap => rfl

theorem bind_reprint (name : String) (run : HostFunction) (p : Printout) (m : Machine) :
    Session.bind name run (reprint p m) = onState (reprint p) (Session.bind name run m) :=
  bind_onState (withRoots_reprint _ p m) fun _ _ => bind_onState rfl fun _ mid =>
    bind_onState (withRoots_reprint _ p mid) fun _ _ => rfl

/-- The lines that a call prints. -/
def Request.lines (request : Request) (m : Machine) : List String :=
  match request with
  | .interpret budget source | .runSource budget source => sourceLines budget source m
  | .bind _ _ | .collect | .takeOutput | .takeDiagnostics => []

/-- A call other than taking the printout, on a machine with another printout. -/
theorem serve_reprint {request : Request} (other : request ≠ .takeOutput) (m : Machine)
    (p : Printout) : serve request (reprint p m) =
      onState (reprint (p.writeLines (request.lines m))) (serve request m) := by
  have hserve : ∀ {α : Type} {x : Session α} {q : Printout} {f : α → Answer},
      x (reprint p m) = onState (reprint q) (x m) →
        (x >>= fun a => pure (f a)) (reprint p m) =
          onState (reprint q) ((x >>= fun a => pure (f a)) m) := by
    intro α x q f same
    cases hrun : x m with
    | ok a n =>
        rw [hrun] at same
        rw [bind_of_ok hrun, bind_of_ok same]
        rfl
    | error e n =>
        rw [hrun] at same
        rw [bind_of_error hrun, bind_of_error same]
        rfl
  cases request with
  | interpret budget source => exact hserve (interpret_reprint budget source m p)
  | runSource budget source => exact hserve (runSource_reprint budget source m p)
  | bind name run => exact hserve (bind_reprint name run p m)
  | collect => exact hserve (withRoots_reprint _ p m)
  | takeOutput => exact absurd rfl other
  | takeDiagnostics => rfl

/-! ### Whole sessions -/

/-- A call of a session, with the lines that have been printed and not been taken. -/
structure Call where
  request : Request
  /-- The lines before the call. -/
  earlier : List String
  /-- The lines after it. -/
  later : List String
  /-- How the call ends. -/
  result : EStateM.Result Fault Machine Answer

/-- The lines that are to be taken after a call. -/
def Request.pending (request : Request) (m : Machine) (earlier : List String) : List String :=
  match request with
  | .takeOutput => []
  | other => earlier ++ other.lines m

/-- The calls of a session, in which some lines are to be taken at first. A fault ends the session,
and so does a source that is paused. -/
def calls : List Request → (earlier : List String) → Machine → List Call
  | [], _, _ => []
  | request :: others, earlier, m =>
    let later := request.pending m earlier
    { request, earlier, later, result := serve request m } :: match serve request m with
      | .ok answer m' => if answer.goesOn then calls others later m' else []
      | .error _ _ => []

/-- Two ends of the same call that differ in the printout only, and in the answer if it is the
printout that was asked for. -/
inductive SameBut (request : Request) :
    EStateM.Result Fault Machine Answer → EStateM.Result Fault Machine Answer → Prop
  | ok {answer answer' : Answer} {m : Machine} {p : Printout} :
      (request ≠ .takeOutput → answer' = answer) →
        SameBut request (.ok answer m) (.ok answer' (reprint p m))
  | error {f : Fault} {m : Machine} {p : Printout} :
      SameBut request (.error f m) (.error f (reprint p m))

/-- Calls that differ in the printout only. The same lines are to be taken before and after
them. -/
structure Call.Alike (call call' : Call) : Prop where
  request : call'.request = call.request
  earlier : call'.earlier = call.earlier
  later : call'.later = call.later
  result : SameBut call.request call.result call'.result

/-- The machine that a call leaves. -/
def Call.machine (call : Call) : Machine :=
  match call.result with
  | .ok _ m => m
  | .error _ m => m

/-- What the printout is after a call, and what is answered when it is taken. -/
structure Call.Holds (capacity : Nat) (call : Call) : Prop where
  printout : call.machine.printout.Holds capacity call.later
  taken : call.request = .takeOutput → ∀ answer m, call.result = .ok answer m →
    answer = .text (Printout.ended (Printout.kept capacity call.earlier))

variable {capacity : Nat} {earlier : List String} {request : Request}

/-- A machine whose printout holds what is kept of some lines. -/
def inked (capacity : Nat) (lines : List String) (m : Machine) : Machine :=
  reprint (Printout.writeLines { capacity } lines) m

/-- A call other than taking the printout adds its lines. -/
theorem serve_inked (other : request ≠ .takeOutput) (capacity : Nat) (earlier : List String)
    (m : Machine) : serve request (inked capacity earlier m) =
      onState (inked capacity (request.pending m earlier)) (serve request m) := by
  have hpending : request.pending m earlier = earlier ++ request.lines m := by
    cases request <;> first | rfl | exact absurd rfl other
  rw [hpending, inked, serve_reprint other, ← Printout.writeLines_append]
  rfl

/-- Taking the printout answers with what has been kept, and leaves it empty. -/
theorem take_inked (capacity : Nat) (earlier : List String) (m : Machine) :
    serve .takeOutput (inked capacity earlier m) =
      .ok (.text (Printout.ended (Printout.kept capacity earlier))) (inked capacity [] m) := by
  obtain ⟨-, hcapacity, -⟩ := Printout.writeLines_eq { capacity } earlier (Nat.zero_le _)
  have htaken : (Printout.writeLines { capacity } earlier).taken = { capacity } := by
    rw [Printout.taken, hcapacity]
  rw [← (Printout.holds_writeLines capacity earlier).text]
  exact congrArg (fun p => EStateM.Result.ok (Answer.text _) (reprint p m)) htaken

/-- What a call prints does not depend on the printout. -/
theorem pending_inked (request : Request) (capacity : Nat) (lines earlier : List String)
    (m : Machine) :
    request.pending (inked capacity lines m) earlier = request.pending m earlier := by
  cases request with
  | interpret budget source | runSource budget source =>
      exact congrArg (earlier ++ ·) (sourceLines_reprint budget source m _)
  | bind | collect | takeOutput | takeDiagnostics => rfl

/-- The same calls on machines whose printouts hold what is kept of the same lines. -/
theorem calls_alike (capacity capacity' : Nat) (requests : List Request) (earlier : List String)
    (m : Machine) : List.Forall₂ Call.Alike (calls requests earlier (inked capacity earlier m))
      (calls requests earlier (inked capacity' earlier m)) := by
  induction requests generalizing earlier m with
  | nil => exact .nil
  | cons request others ih =>
      simp only [calls, pending_inked]
      by_cases htake : request = .takeOutput
      · subst htake
        simp only [take_inked]
        exact .cons ⟨rfl, rfl, rfl, .ok fun other => absurd rfl other⟩ (ih [] m)
      · simp only [serve_inked htake]
        cases serve request m with
        | error f n => exact .cons ⟨rfl, rfl, rfl, .error⟩ .nil
        | ok answer n =>
            refine .cons ⟨rfl, rfl, rfl, .ok fun _ => rfl⟩ ?_
            simp only [onState]
            split
            · exact ih _ n
            · exact .nil

/-- The printout after each call holds what is kept of the lines that are to be taken. -/
theorem calls_hold (capacity : Nat) (requests : List Request)
    (earlier : List String) (m : Machine) :
    ∀ call ∈ calls requests earlier (inked capacity earlier m), call.Holds capacity := by
  induction requests generalizing earlier m with
  | nil => exact List.forall_mem_nil _
  | cons request others ih =>
      simp only [calls, pending_inked, List.mem_cons, forall_eq_or_imp]
      by_cases htake : request = .takeOutput
      · subst htake
        simp only [take_inked]
        refine ⟨⟨Printout.holds_writeLines capacity [], ?_⟩, ih [] m⟩
        rintro - answer n ⟨⟩
        rfl
      · simp only [serve_inked htake]
        refine ⟨⟨?_, fun h => absurd h htake⟩, ?_⟩
        · cases hserve : serve request m with
          | error f n => exact Printout.holds_writeLines capacity _
          | ok answer n => exact Printout.holds_writeLines capacity _
        · cases serve request m with
          | error f n => exact List.forall_mem_nil _
          | ok answer n =>
              simp only [onState]
              split
              · exact ih _ n
              · exact List.forall_mem_nil _

/-- A new machine with another capacity. -/
theorem begin_reprint {settings : Settings} {clock : Nat → Float} (capacity : Nat)
    (begins : Session.begin settings clock = .ok () m) :
    m = inked settings.outputCapacity [] m ∧
      Session.begin { settings with outputCapacity := capacity } clock =
        .ok () (inked capacity [] m) := by
  unfold Session.begin at begins ⊢
  dsimp only at begins ⊢
  split at begins
  · cases begins
  · rename_i hfits
    rw [if_neg hfits]
    have hother := fun p => bind_reprint "clock" clockFunction p (blank settings clock)
    rw [begins] at hother
    refine ⟨?_, hother { capacity }⟩
    have hown := hother (blank settings clock).printout
    rw [show reprint (blank settings clock).printout (blank settings clock) = blank settings clock
      from rfl, begins] at hown
    injection hown with _ hmachine

/-- The capacity of the printout is unobservable but for the printout. The same calls, made on a new
machine and on one with another capacity, end in the same way, with the same answers except for the
printout itself, and leave the same machine but for the printout; and they print the same lines. On
each machine, whatever the calls are, what the printout holds is what its own capacity keeps of the
lines that have been printed since it was last taken. A source may be given any budget and be paused
in the middle, so this holds after each of its instructions. -/
theorem capacity_unobservable {settings : Settings} {clock : Nat → Float} (requests : List Request)
    (capacity : Nat) (begins : Session.begin settings clock = .ok () m) :
    ∃ m', Session.begin { settings with outputCapacity := capacity } clock = .ok () m' ∧
      List.Forall₂ Call.Alike (calls requests [] m) (calls requests [] m') ∧
      (∀ call ∈ calls requests [] m, call.Holds settings.outputCapacity) ∧
      ∀ call ∈ calls requests [] m', call.Holds capacity := by
  obtain ⟨hown, hother⟩ := begin_reprint capacity begins
  have halike := calls_alike settings.outputCapacity capacity requests [] m
  have hholds := calls_hold settings.outputCapacity requests [] m
  rw [← hown] at halike hholds
  exact ⟨_, hother, halike, hholds, calls_hold capacity requests [] m⟩

/-! ### A session that prints more than fits -/

/-- Calls of a host that prints a long line before two short ones, takes them, and prints again. The
last source is rejected. -/
def talkativeRequests : List Request :=
  [.interpret 100 "print \"too long\"; print \"é\"; print 1;", .takeOutput,
    .interpret 100 "print 22;", .collect, .interpret 100 "print 3; print", .takeDiagnostics]

/-- The lines to be taken after each call on a new machine, and the text and the flag of its
printout then. -/
def printoutsIn (capacity : Nat) (requests : List Request) : List (List String × String × Bool) :=
  match Session.begin { outputCapacity := capacity } (fun _ => 0) with
  | .error _ _ => []
  | .ok () m => (calls requests [] m).map fun call =>
    (call.later, call.machine.printout.text, call.machine.printout.truncated)

/-- Six bytes hold the short lines, and not the long one before them. -/
theorem capacity_unobservable_six : ∃ m m',
    Session.begin { outputCapacity := 6 } (fun _ => 0) = .ok () m ∧
      Session.begin { outputCapacity := 4096 } (fun _ => 0) = .ok () m' ∧
      (calls talkativeRequests [] m).map
          (fun call => (call.later, call.machine.printout.text, call.machine.printout.truncated)) =
        [(["too long", "é", "1"], "é\n1\n", true), ([], "", false), (["22"], "22\n", false),
          (["22"], "22\n", false), (["22"], "22\n", false), (["22"], "22\n", false)] ∧
      List.Forall₂ Call.Alike (calls talkativeRequests [] m) (calls talkativeRequests [] m') ∧
      (∀ call ∈ calls talkativeRequests [] m, call.Holds 6) ∧
      ∀ call ∈ calls talkativeRequests [] m', call.Holds 4096 := by
  have printouts : printoutsIn 6 talkativeRequests =
      [(["too long", "é", "1"], "é\n1\n", true), ([], "", false), (["22"], "22\n", false),
        (["22"], "22\n", false), (["22"], "22\n", false), (["22"], "22\n", false)] := by
    decide +kernel
  unfold printoutsIn at printouts
  split at printouts
  · cases printouts
  · rename_i m begins
    obtain ⟨m', begins', rest⟩ := capacity_unobservable talkativeRequests 4096 begins
    exact ⟨m, m', begins, begins', printouts, rest⟩

end Session

end Lox
