import Lox.Proofs.Code.Alignment
import Lox.Proofs.Code.WellFormed
import Lox.Proofs.Machine.Extents

/-!
# Traces of runtime errors

The trace of a runtime error has an entry for every active call. Its line is that of the byte right
in front of the place where the call goes on. This byte need not be an operation: how far the
machine has read an instruction when it fails depends on the instruction, and a call that waits goes
on behind the operand of its own call instruction.

What makes the line right is that all bytes of an instruction have one line. So it is enough to know
which instruction the byte belongs to: the failing one for the innermost call, and the call
instruction that waits for its result for every other one.

## Main definitions

* `Heap.Ruled` — code that falls into instructions with one line each.
* `Heap.Tells` — the entry of a call that executes the instruction at a given offset.
* `Machine.Traced` — the trace of a machine whose next instruction fails.

## Main results

* `Ready.traced` — one instruction.
* `Ready.run_traced` — a run that fails.
-/

namespace Lox

variable {heap heap' : Heap} {roots : List Handle} {entries : List (Nat × Handle)}
  {building : Option Handle} {fr : Frame} {outer : List Frame} {f : Function} {name : Option String}
  {constants : List Constant} {L pre post : Listing} {l : Line} {P below : Profile} {op : OpCode}
  {operand : Nat} {t : TraceLine} {trace : List TraceLine}

namespace Heap

/-! ### The lines of a chunk -/

/-- Code that falls into instructions at given offsets, all bytes of which have one line. -/
structure Ruled (heap : Heap) (c : Chunk) (starts : List Nat) : Prop where
  splits : heap.Splits c 0 starts
  uniform : ∀ offset ∈ starts, ∃ size line, heap.sizeAt? c offset = some size ∧
    ∀ k < size, c.lines[offset + k]? = some line

/-- The function of a call is the one that its entry in a trace names, and the entry has the line of
the operation at a given offset. -/
def Tells (heap : Heap) (fr : Frame) (offset : Nat) (op : OpCode) (t : TraceLine) : Prop :=
  ∃ f starts, heap.object? fr.function = some (.function f) ∧ heap.Named f.name t.function ∧
    heap.Ruled f.chunk starts ∧ offset ∈ starts ∧ f.chunk.opAt? offset = some op ∧
    f.chunk.lines[offset]? = some t.line

/-- The code of a function that has one line for each instruction. -/
theorem ruled_of_lined (holds : heap.HoldsAll f.chunk.constants constants)
    (code : f.chunk.code.toList = L.code) (typed : L.Typed constants f.upvalueCount)
    (lined : (f.template name).Lined constants) : heap.Ruled f.chunk (L.starts 0) := by
  refine ⟨splits_of_typed code holds typed (List.nil_append L).symm, fun offset hmem => ?_⟩
  obtain ⟨pre, l, post, hsplit, rfl⟩ := Listing.mem_starts.mp hmem
  obtain ⟨line, hline⟩ := lined.uniform code.symm typed hsplit
  rw [Nat.zero_add]
  refine ⟨l.bytes.length, line, sizeAt?_of_typed code holds typed hsplit, fun k hk => ?_⟩
  rw [← Array.getElem?_toList]
  exact hline k hk

/-! ### The entry of a call -/

/-- The constants of a chunk resolve in one way. -/
theorem HoldsAll.unique {values : Array Value} {constants constants' : List Constant}
    (left : heap.HoldsAll values constants) (right : heap.HoldsAll values constants') :
    constants = constants' :=
  List.right_unique_forall₂' (R := heap.Holds) (fun _ _ _ => Holds.unique) left right

/-- An entry has the name of the function, and the line in front of the place where it goes on. -/
theorem traceLine_spec (function : heap.object? fr.function = some (.function f))
    (named : heap.Named f.name name) (found : Machine.traceLine heap fr = .ok t) :
    t.function = name ∧ f.chunk.lines[fr.ip - 1]? = some t.line := by
  simp only [Machine.traceLine, function_eq_ok_iff.mpr function, Machine.mapM_string named, bind,
    Except.bind] at found
  cases hline : f.chunk.lines[fr.ip - 1]? with
  | none =>
      rw [hline] at found
      cases found
  | some line =>
      rw [hline] at found
      cases found
      exact ⟨rfl, rfl⟩

/-- The entry of a frame that goes on inside an instruction of its listing, or right behind it. The
entry is made in a later heap. -/
theorem Runs.tells (runs : heap.Runs fr f constants L)
    (secure : heap.Secure entries building roots) (root : fr.closure ∈ roots)
    (keeps : heap.Keeps roots heap') (split : L = pre ++ l :: post)
    (form : OpCode.Form op operand l.bytes) {k : Nat} (inside : k < l.bytes.length)
    (found : Machine.traceLine heap' { fr with ip := pre.size + k + 1 } = .ok t) :
    heap.Tells fr pre.size op t ∧ (f.name = none → t.function = none) := by
  have hreach := runs.reaches root
  obtain ⟨name, constants', hname, hholds, -, hlined, -⟩ := secure.function hreach runs.function
  obtain rfl := runs.holds.unique hholds
  have hnamed : heap'.Named f.name name := hname.later keeps fun g hg =>
    hreach.child runs.function (by simp [Object.children, hg])
  obtain ⟨rfl, hline⟩ := traceLine_spec (show heap'.object? (Frame.function { fr with
    ip := pre.size + k + 1 }) = _ from keeps _ _ hreach runs.function) hnamed found
  obtain ⟨line, huniform⟩ := hlined.uniform runs.code.symm runs.listed split
  have hsame : ∀ k < l.bytes.length, f.chunk.lines[pre.size + k]? = some line := fun k hk => by
    rw [← Array.getElem?_toList]
    exact huniform k hk
  obtain rfl : t.line = line := Option.some.inj (hline.symm.trans (hsame k inside))
  refine ⟨⟨f, L.starts 0, runs.function, hname,
    ruled_of_lined runs.holds runs.code runs.listed hlined, ?_, ?_, hsame 0 form.length_pos⟩, ?_⟩
  · exact Listing.mem_starts.mpr ⟨pre, l, post, split, (Nat.zero_add _).symm⟩
  · exact (Listing.reads (runs.code.trans (by rw [split]))).opAt? form
  · intro hnone
    rw [hnone] at hname
    cases hentry : t.function with
    | none => rfl
    | some text =>
        rw [hentry] at hname
        exact hname.elim

/-- The entry of a call that waits. -/
theorem Awaits.tells (awaits : heap.Awaits fr outer P) (secure : heap.Secure entries building roots)
    (root : fr.closure ∈ roots) (keeps : heap.Keeps roots heap')
    (found : Machine.traceLine heap' fr = .ok t) :
    (∃ offset, fr.ip = offset + 2 ∧ heap.Tells fr offset .call t) ∧
      (outer = [] → t.function = none) := by
  obtain ⟨f, constants, L, hruns, -, ⟨pre, profile, count, post, hsplit, hip⟩, hscript⟩ := awaits
  have hfound : Machine.traceLine heap' { fr with ip := pre.size + 1 + 1 } = .ok t := by
    rw [← found, ← hip]
  obtain ⟨htells, hnone⟩ := hruns.tells secure root keeps hsplit (.short rfl (by decide))
    (Nat.lt_add_one 1) hfound
  exact ⟨⟨pre.size, hip, htells⟩, fun houter => hnone (hscript houter)⟩

/-- The entries of calls that wait, and the last of them. -/
theorem Calls.tells {others : List TraceLine} (calls : heap.Calls outer below)
    (secure : heap.Secure entries building roots) (rooted : ∀ fr ∈ outer, fr.closure ∈ roots)
    (keeps : heap.Keeps roots heap')
    (found : List.Forall₂ (fun fr t => Machine.traceLine heap' fr = .ok t) outer others) :
    List.Forall₂ (fun fr t => ∃ offset, fr.ip = offset + 2 ∧ heap.Tells fr offset .call t)
        outer others ∧
      ∀ t, others.getLast? = some t → t.function = none := by
  induction calls generalizing others with
  | nil =>
      cases found
      exact ⟨.nil, nofun⟩
  | @cons fr outer _ _ hawaits _ _ ih =>
      obtain ⟨t, others, hfirst, hrest, rfl⟩ := List.forall₂_cons_left_iff.mp found
      obtain ⟨hfirst, hlast⟩ := hawaits.tells secure (rooted fr (by simp)) keeps hfirst
      obtain ⟨hrest', hlast'⟩ := ih (fun fr hfr => rooted fr (List.mem_cons_of_mem _ hfr)) hrest
      refine ⟨.cons hfirst hrest', fun last hmem => ?_⟩
      cases hrest with
      | nil =>
          obtain rfl : t = last := by simpa using hmem
          exact hlast rfl
      | cons => exact hlast' last (by simpa using hmem)

end Heap

namespace Machine

variable {m m' mid : Machine} {script : Handle} {e : RuntimeError} {cause : Cause}

/-! ### The trace of a machine -/

/-- The function of the outermost call. -/
def bottom? (m : Machine) : Option Handle := m.frames.getLast?.map Frame.function

/-- The trace of an error that the next instruction of a machine raises: an entry for each active
call, innermost first. The innermost call executes the next instruction, each other one a call
instruction. The last entry is that of the script. -/
inductive Traced (script : Handle) (m : Machine) : List TraceLine → Prop
  | intro {fr : Frame} {outer : List Frame} {op : OpCode} {t : TraceLine} {others : List TraceLine}
      (frames : m.frames = fr :: outer) (innermost : m.heap.Tells fr fr.ip op t)
      (waiting : List.Forall₂ (fun fr t => ∃ offset, fr.ip = offset + 2 ∧
        m.heap.Tells fr offset .call t) outer others)
      (outermost : m.bottom? = some script)
      (unnamed : ∀ last, (t :: others).getLast? = some last → last.function = none) :
      Traced script m (t :: others)

/-- Answers to one question about each entry of a list. -/
theorem forall₂_of_mapM {ε α β : Type} {ask : α → Except ε β} {xs : List α} {ys : List β}
    (run : xs.mapM ask = .ok ys) : List.Forall₂ (fun x y => ask x = .ok y) xs ys := by
  induction xs generalizing ys with
  | nil =>
      cases run
      exact .nil
  | cons x xs ih =>
      rw [List.mapM_cons] at run
      cases hx : ask x with
      | error f =>
          rw [hx] at run
          cases run
      | ok y =>
          cases hxs : xs.mapM ask with
          | error f =>
              rw [hx, hxs] at run
              cases run
          | ok rest =>
              rw [hx, hxs] at run
              cases run
              exact .cons hx (ih hxs)

/-- An instruction that fails has a trace that names the lines of the active calls. -/
theorem Ready.traced (ready : m.Ready) (bottom : m.bottom? = some script)
    (failed : Machine.step m = .error (.raised e) m') : m.Traced script e.trace := by
  obtain ⟨C, P, pre, l, post, op, operand, poised, hsplit, hip, hform, hdepth, hfetch⟩ :=
    ready.instruction
  have horderly := poised.secure.valid.toOrderly
  by_cases hback : op = .giveBack
  · -- the result of a call is on the stack
    subst hback
    rw [Machine.step, bind_of_ok hfetch] at failed
    simp only [if_pos] at failed
    obtain ⟨-, hroom⟩ := ((fetch_advances m).moves _ _ hfetch).fit horderly poised.room
    have hempty : m.stack.size = 0 := congrArg Array.size (giveBack_raises hroom failed).1
    have hheight := poised.height
    simp only [OpCode.depth] at hdepth
    omega
  obtain ⟨last, cause, hintact, hraise⟩ :=
    step_early_of_fetch horderly poised.room hfetch hback e m' failed
  obtain ⟨-, htrace, -⟩ := raise_inv hraise
  have hframes : last.frames = { C.frame with ip := pre.size + op.width + 1 } :: C.outer := by
    rw [hintact.rest, hip, Nat.add_comm 1, Nat.add_assoc]
  have hkeeps : m.heap.Keeps m.rooted last.heap := by
    have := hintact.keeps
    rw [rooted, roots, List.map_cons] at this
    rwa [rooted, roots, poised.frames, List.map_cons]
  have hsecure : m.heap.Secure m.openCells.entries C.building m.rooted := by
    simpa [holding] using poised.secure
  have hrooted : ∀ fr ∈ m.frames, fr.closure ∈ m.rooted := fun fr hfr =>
    mem_rooted.mpr (.inr (.inl ⟨fr, hfr, rfl⟩))
  rw [poised.frames] at hrooted
  rw [hframes] at htrace
  have hall := forall₂_of_mapM htrace
  obtain ⟨t, others, hfirst, hrest, htrace'⟩ := List.forall₂_cons_left_iff.mp hall
  obtain ⟨hfirst', hscript⟩ := poised.runs.tells hsecure (hrooted _ (by simp)) hkeeps hsplit hform
    hform.width_lt hfirst
  obtain ⟨hwaiting, hlast⟩ := poised.calls.tells hsecure
    (fun fr hfr => hrooted fr (List.mem_cons_of_mem _ hfr)) hkeeps hrest
  rw [htrace']
  refine .intro poised.frames (hip ▸ hfirst') hwaiting bottom fun last hmem => ?_
  cases others with
  | nil =>
      obtain rfl : t = last := by simpa using hmem
      exact hscript (poised.script (List.forall₂_nil_right_iff.mp hrest))
  | cons => exact hlast last (by simpa using hmem)

/-! ### Runs -/

/-- The outermost call stays the same while a script runs on. -/
theorem Ready.bottom (ready : m.Ready) (run : Machine.step m = .ok .running m') :
    m'.bottom? = m.bottom? := by
  obtain ⟨C, P, poised, -⟩ := id ready
  have hframes := poised.frames
  have hnext : m'.Ready := by
    have := ready.step
    rw [run] at this
    cases this with
    | ok h => exact h
  obtain ⟨C', P', poised', -⟩ := hnext
  unfold bottom?
  rw [hframes]
  cases ready.runsOn hframes run with
  | inside hframes' => cases houter : C.outer <;> simp [hframes', houter]
  | enters hframes' => cases houter : C.outer <;> simp [hframes', houter]
  | returns _ hframes' =>
      have hsame := poised'.frames.symm.trans hframes'
      simp [hframes', ← hsame]

/-- A script that runs on is ready, and its outermost call is the same. -/
theorem Ready.runs_on {steps : Nat} (ready : m.Ready)
    (run : Machine.run steps m = .ok .running m') : m'.Ready ∧ m'.bottom? = m.bottom? := by
  induction steps generalizing m with
  | zero =>
      cases run
      exact ⟨ready, rfl⟩
  | succ steps ih =>
      cases hstep : Machine.step m with
      | error i last => cases (run_succ_of_error hstep).symm.trans run
      | ok status mid =>
          cases status with
          | halted => cases (run_succ_of_halted hstep).symm.trans run
          | running =>
              have hends := ready.step
              rw [hstep] at hends
              obtain ⟨hready⟩ := hends
              obtain ⟨hready', hbottom⟩ := ih hready ((run_succ_of_running hstep).symm.trans run)
              exact ⟨hready', hbottom.trans (ready.bottom hstep)⟩

/-- A run that fails does so with an instruction. -/
theorem run_fails {budget : Nat} (failed : Machine.run budget m = .error (.raised e) m') :
    ∃ steps mid, steps < budget ∧ Machine.run steps m = .ok .running mid ∧
      Machine.step mid = .error (.raised e) m' := by
  induction budget generalizing m with
  | zero => cases failed
  | succ budget ih =>
      cases hstep : Machine.step m with
      | error i last =>
          cases (run_succ_of_error hstep).symm.trans failed
          exact ⟨0, m, Nat.succ_pos _, rfl, hstep⟩
      | ok status next =>
          cases status with
          | halted => cases (run_succ_of_halted hstep).symm.trans failed
          | running =>
              obtain ⟨steps, mid, hlt, hrun, hfailed⟩ :=
                ih ((run_succ_of_running hstep).symm.trans failed)
              exact ⟨steps + 1, mid, Nat.succ_lt_succ hlt, (run_succ_of_running hstep).trans hrun,
                hfailed⟩

/-- A run that fails has a trace that names the lines of the calls that are active when it does. -/
theorem Ready.run_traced {budget : Nat} (ready : m.Ready) (bottom : m.bottom? = some script)
    (failed : Machine.run budget m = .error (.raised e) m') :
    ∃ steps mid, steps < budget ∧ Machine.run steps m = .ok .running mid ∧
      Machine.step mid = .error (.raised e) m' ∧ mid.Traced script e.trace := by
  obtain ⟨steps, mid, hlt, hrun, hfailed⟩ := run_fails failed
  obtain ⟨hready, hbottom⟩ := ready.runs_on hrun
  exact ⟨steps, mid, hlt, hrun, hfailed, hready.traced (hbottom.trans bottom) hfailed⟩

end Machine

end Lox
