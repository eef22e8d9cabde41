import Lox.Proofs.Machine.Progress
import Lox.Proofs.Reference.Instructions

/-!
# Steps and their echoes

A machine that is ready and mirrors a reference machine still does so after a step, and after any
number of steps. The code that it runs is typed, so a value leaves the stack only when no open
cell stands for its slot, and a closure captures only locals that are there.

## Main definitions

* `OpCode.takes` — how many values an instruction takes off the stack for good.

## Main results

* `execute_tracks` — instructions.
* `Fits.demands`, `Ready.prepared` — what typed code makes sure of.
* `step_tracks`, `run_tracks` — steps and runs.
-/

namespace Lox

/-! ### Typed code -/

/-- How many values on top of the stack an instruction takes off for good. No open cell may stand
for one of their slots. -/
def OpCode.takes : OpCode → (operand : Nat) → Nat
  | .pop, _ | .print, _ | .defineGlobal, _ | .not, _ | .negate, _ | .giveBack, _ => 1
  | .equal, _ | .greater, _ | .less, _ | .add, _ | .subtract, _ | .multiply, _ | .divide, _ => 2
  | .call, count => count + 1
  | _, _ => 0

/-- What typed code makes sure of in front of an instruction: no open cell may stand for a slot
whose value the instruction takes, a constant that is pushed is a literal, and a closure captures
what may be captured. -/
theorem Fits.demands {constants : List Constant} {upvalues offset : Nat} {L : Listing} {P : Profile}
    {bs : List UInt8} (fits : Fits constants upvalues L offset P bs) :
    ∃ op operand, OpCode.Form op operand bs ∧
      (∀ (below : Profile) slot, Profile.shares slot (P ++ below) = true →
        slot + op.takes operand < (P ++ below).length) ∧
      (op = .constant → ∃ k, constants[operand]? = some k ∧ k.isLiteral = true) ∧
      (op = .closure → ∃ (t : Template) (inner : List Constant) (captures : List Capture),
        constants[operand]? = some (.function t inner) ∧
        captures.length = t.upvalueCount ∧
        bs.drop 2 = captures.flatMap Capture.bytes ∧
        ∀ c ∈ captures, c.isLocal = true → c.index.toNat < P.length + 1) := by
  have hlt : ∀ {op : OpCode} {operand : Nat} {P : Profile}, op.takes operand = 0 →
      ∀ (below : Profile) slot, Profile.shares slot (P ++ below) = true →
        slot + op.takes operand < (P ++ below).length :=
    fun {op operand P} htakes below slot hshares => by
      rw [htakes]
      exact Profile.lt_of_shares hshares
  have htaken : ∀ {op : OpCode} {operand n : Nat} {P : Profile}, op.takes operand = n →
      ∀ (below : Profile) slot, Profile.shares slot (List.replicate n false ++ P ++ below) = true →
        slot + op.takes operand < (List.replicate n false ++ P ++ below).length :=
    fun {op operand n P} htakes below slot hshares => by
      rw [List.append_assoc] at hshares ⊢
      have := Profile.lt_of_shares (Profile.shares_of_replicate hshares)
      rw [htakes, List.length_append, List.length_replicate]
      omega
  have hno : ∀ {op : OpCode} {p : Prop}, op ≠ .constant → op = .constant → p :=
    fun hne heq => absurd heq hne
  have hno' : ∀ {op : OpCode} {p : Prop}, op ≠ .closure → op = .closure → p :=
    fun hne heq => absurd heq hne
  cases fits with
  | @literal op _ h =>
      cases op <;> cases h
      all_goals exact ⟨_, 0, .plain rfl (by decide), hlt rfl, hno (by decide), hno' (by decide)⟩
  | constant h hliteral =>
      exact ⟨_, _, .short rfl (by decide), hlt rfl, fun _ => ⟨_, h, hliteral⟩, hno' (by decide)⟩
  | @drop op P h =>
      cases op <;> cases h
      all_goals exact ⟨_, 0, .plain rfl (by decide), htaken (n := 1) rfl,
        hno (by decide), hno' (by decide)⟩
  | closeUpvalue => exact ⟨_, 0, .plain rfl (by decide), hlt rfl, hno (by decide), hno' (by decide)⟩
  | getLocal | setLocal | getGlobal | setGlobal | getUpvalue | setUpvalue =>
      exact ⟨_, _, .short rfl (by decide), hlt rfl, hno (by decide), hno' (by decide)⟩
  | defineGlobal => exact ⟨_, _, .short rfl (by decide), htaken (n := 1) rfl,
    hno (by decide), hno' (by decide)⟩
  | @unary op P h =>
      cases op <;> cases h
      all_goals exact ⟨_, 0, .plain rfl (by decide), htaken (n := 1) rfl,
        hno (by decide), hno' (by decide)⟩
  | @binary op P h =>
      cases op <;> cases h
      all_goals exact ⟨_, 0, .plain rfl (by decide), htaken (n := 2) rfl,
        hno (by decide), hno' (by decide)⟩
  | jump h | jumpIfFalse h | loop h =>
      exact ⟨_, _, .long rfl (by decide) h, hlt rfl, hno (by decide), hno' (by decide)⟩
  | call => exact ⟨_, _, .short rfl (by decide), htaken rfl, hno (by decide), hno' (by decide)⟩
  | @closure i t inner captures b _ found count reachable =>
      refine ⟨_, _, .closure captures, hlt rfl, hno (by decide), fun _ =>
        ⟨t, inner, captures, found, count,
        rfl, fun c hc hlocal => ?_⟩⟩
      have := reachable c hc
      rw [Capture.Reachable, if_pos hlocal] at this
      exact Profile.lt_of_shares this
  | giveBack => exact ⟨_, 0, .plain rfl (by decide), htaken (n := 1) rfl,
    hno (by decide), hno' (by decide)⟩

/-! ### Instructions -/

namespace Machine

variable {m n : Machine} {r s : Reference} {π : Picture} {op : OpCode} {operand : Nat}

/-- A reference machine is in front of a literal when it is to push a constant, and in front of a
description of captured variables when it is to make a closure. -/
def Prepared (r : Reference) : (op : OpCode) → (operand : Nat) → Prop
  | .constant, index => ∃ k, Reference.constant index r = .ok k r ∧ k.isLiteral = true
  | .closure, index => ∃ t constants captures,
      Reference.constant index r = .ok (.function t constants) r ∧
      captures.length = t.upvalueCount ∧ r.Offers (r.stack.size + 1) captures
  | _, _ => True

/-- Pushing a constant. -/
theorem constant_tracks (mirrors : Mirrors π m r) {index : Nat} {k : Constant}
    (found : Reference.constant index r = .ok k r) (literal : k.isLiteral = true) :
    Echoes Tracks ((do push (← constant index) : Action Unit) m)
      ((do Reference.push (← Reference.literal index) : Reference.Act Unit) r) := by
  refine (constant_sees mirrors index).bind_left found fun v hv => ?_
  obtain ⟨hholds, -⟩ := hv
  have hbind : ∀ d : Datum, Reference.literal index r = .ok d r →
      (do Reference.push (← Reference.literal index) : Reference.Act Unit) r = Reference.push d r :=
    fun d hd => bind_of_ok hd
  cases hholds with
  | @number x =>
      rw [hbind (.number x) (by rw [Reference.literal, bind_of_ok found]; rfl)]
      exact push_tracks mirrors (.number x)
  | @text h s hs =>
      rw [hbind (.text s) (by rw [Reference.literal, bind_of_ok found]; rfl)]
      exact push_tracks mirrors (.text hs)
  | function => cases literal

/-- An instruction and its echo. -/
theorem execute_tracks (mirrors : Mirrors π m r) (spare : m.Spare (op.takes operand))
    (prepared : Prepared r op operand) :
    Echoes Tracks (execute op operand m) (Reference.execute op operand r) := by
  cases op with
  | constant =>
      obtain ⟨k, hk, hliteral⟩ := prepared
      exact constant_tracks mirrors hk hliteral
  | pushNil => exact push_tracks mirrors .nil
  | pushTrue => exact push_tracks mirrors (.bool true)
  | pushFalse => exact push_tracks mirrors (.bool false)
  | pop =>
      refine (pop_echoes mirrors spare).bind ?_
      rintro _ n _ s ⟨-, -, -, hn, -⟩
      exact .ok ⟨rfl, π, hn⟩
  | getLocal =>
      refine (frame_sees mirrors).bind fun fr a hframe => ?_
      rw [hframe.1.base]
      exact slotValue_echoes mirrors _ fun v d hdenotes => push_tracks mirrors hdenotes
  | setLocal =>
      refine (frame_sees mirrors).bind fun fr a hframe => ?_
      refine (peek_sees mirrors 0).bind fun v d hdenotes => ?_
      rw [hframe.1.base]
      exact setLocal_tracks mirrors _ hdenotes
  | getGlobal =>
      refine (nameConstant_sees mirrors operand).bind fun g name hname => ?_
      refine (readGlobal_sees mirrors hname).bind fun v d hdenotes => ?_
      exact push_tracks mirrors hdenotes
  | defineGlobal =>
      refine (nameConstant_sees mirrors operand).bind fun g name hname => ?_
      refine (peek_sees mirrors 0).bind fun v d hdenotes => ?_
      have hset := mirrors.setGlobal hname hdenotes
      refine Echoes.bind (x := setGlobal g v) (y := Reference.setGlobal name d)
        (R := fun _ n _ s => Mirrors π n s ∧ n.Spare 1) (.ok ⟨hset, spare⟩) ?_
      rintro _ n _ s ⟨hn, hspare⟩
      refine (pop_echoes hn hspare).bind ?_
      rintro _ k _ t ⟨-, -, -, hk, -⟩
      exact .ok ⟨rfl, π, hk⟩
  | setGlobal =>
      exact (nameConstant_sees mirrors operand).bind fun g name hname =>
        assignGlobal_tracks mirrors hname
  | getUpvalue =>
      refine (capturedCell_sees mirrors operand).bind fun g ℓ hcell => ?_
      exact (readCell_sees mirrors hcell).bind fun v d hdenotes => push_tracks mirrors hdenotes
  | setUpvalue =>
      refine (capturedCell_sees mirrors operand).bind fun g ℓ hcell => ?_
      exact (peek_sees mirrors 0).bind fun v d hdenotes => writeCell_tracks mirrors hcell hdenotes
  | equal =>
      refine (pop_echoes mirrors spare).bind ?_
      rintro v n d s ⟨hright, rfl, -, hn, hspare⟩
      refine (pop_echoes hn hspare).bind ?_
      rintro w k e t ⟨hleft, rfl, -, hk, -⟩
      rw [Mirroring.same hk hleft hright]
      exact push_tracks hk (.bool _)
  | greater => exact binary_tracks mirrors spare fun x y => .bool _
  | less => exact binary_tracks mirrors spare fun x y => .bool _
  | add => exact add_tracks mirrors spare
  | subtract => exact binary_tracks mirrors spare fun x y => .number _
  | multiply => exact binary_tracks mirrors spare fun x y => .number _
  | divide => exact binary_tracks mirrors spare fun x y => .number _
  | not =>
      refine (pop_echoes mirrors spare).bind ?_
      rintro v n d s ⟨hdenotes, -, -, hn, -⟩
      rw [hdenotes.isFalsey]
      exact push_tracks hn (.bool _)
  | negate => exact negate_tracks mirrors spare
  | print => exact print_tracks mirrors spare
  | jump => exact jump_tracks mirrors operand
  | jumpIfFalse =>
      refine (peek_sees mirrors 0).bind fun v d hdenotes => ?_
      rw [hdenotes.isFalsey]
      split
      · exact jump_tracks mirrors operand
      · exact .ok ⟨rfl, π, mirrors⟩
  | loop => exact jumpBack_tracks mirrors operand
  | call => exact callValue_tracks mirrors spare
  | closure =>
      obtain ⟨t, constants, captures, hfound, hcount, hoffers⟩ := prepared
      exact makeClosure_tracks mirrors hfound hcount hoffers
  | closeUpvalue => exact closeTop_tracks mirrors
  | giveBack => exact .ok ⟨rfl, π, mirrors⟩

/-! ### Steps -/

/-- What a machine that is ready is going to do, and that its counterpart is prepared for it. -/
theorem Ready.prepared (ready : m.Ready) (mirrors : Mirrors π m r) :
    ∃ op operand n s, fetch m = .ok (op, operand) n ∧ Reference.fetch r = .ok (op, operand) s ∧
      Mirrors π n s ∧ n.Spare (op.takes operand) ∧ Prepared s op operand := by
  obtain ⟨C, P, poised, whole, pre, post, hsplit, hip, henters⟩ := ready
  rcases post with _ | ⟨⟨profile, bytes⟩, post⟩
  · exact henters.elim
  have fits := poised.runs.listed pre _ post hsplit
  have reads : C.function.chunk.Reads C.frame.ip bytes := by
    rw [hip]
    exact Listing.reads (poised.runs.code.trans (by rw [hsplit]))
  obtain ⟨op, operand, hform, htakes, hconstant, hclosure⟩ := fits.demands
  obtain ⟨n, hfetch, hposed, hheap, hstack, hcells⟩ := (poised.weaken henters).fetch hform reads
  obtain ⟨_, s, hfetch', rfl, hn⟩ := (fetch_echoes mirrors).right hfetch
  refine ⟨op, operand, n, s, hfetch, hfetch', hn, fun e he => ?_, ?_⟩
  · have hlt := htakes C.below e.1 (hposed.shares e he)
    rw [List.length_append] at hlt
    rw [hposed.height]
    exact hlt
  · cases op with
    | constant =>
        obtain ⟨k, hk, hliteral⟩ := hconstant rfl
        obtain ⟨v, hv, hholds, -⟩ := hposed.constant hk
        obtain ⟨k', _, hk', -, rfl, hholds', -⟩ := (constant_sees hn operand).right hv
        refine ⟨k', hk', ?_⟩
        cases hholds with
        | number =>
            cases hholds'
            rfl
        | text hs =>
            rw [hholds'.eq_text hs]
            rfl
        | function => cases hliteral
    | closure =>
        obtain ⟨t, inner, captures, hk, hcount, hbytes, hlocals⟩ := hclosure rfl
        obtain ⟨v, hv, hholds, -⟩ := hposed.constant hk
        obtain ⟨k', _, hk', -, rfl, hholds', -⟩ := (constant_sees hn operand).right hv
        cases hholds with
        | @function h f name _ hf =>
        obtain ⟨name', constants', rfl, -⟩ := (Heap.holds_function_iff hf).mp hholds'
        have hall := hn.frames
        rw [hposed.frames] at hall
        obtain ⟨a, calls, hframe, -, hcalls⟩ := List.forall₂_cons_left_iff.mp hall
        obtain ⟨k, name, hclosure, htemplate, -⟩ :=
          hn.function hframe (Heap.function_eq_ok_iff.mpr hposed.runs.function)
        refine ⟨f.template name', constants', captures, hk', hcount, a, calls, k, hcalls, hclosure,
          fun i b hb => ?_, fun c hc hlocal => ?_⟩
        · rw [← hbytes, List.getElem?_drop] at hb
          have hread := reads (2 + i) (List.getElem?_eq_some_iff.mp hb).1
          rw [hb] at hread
          rw [htemplate, hframe.ip, ← hread]
          simp [Function.template, Call.after, Call.goto, OpCode.width, Nat.add_assoc]
        · have := hlocals c hc hlocal
          rw [hframe.base, ← hposed.slots, hn.size, hposed.height]
          omega
    | _ => trivial

/-- One step of a machine that is ready, and its echo. -/
theorem step_tracks (ready : m.Ready) (mirrors : Mirrors π m r) :
    Echoes Tracks (step m) (Reference.step r) := by
  obtain ⟨op, operand, n, s, hfetch, hfetch', hn, hspare, hprepared⟩ := ready.prepared mirrors
  rw [step, Reference.step, bind_of_ok hfetch, bind_of_ok hfetch']
  by_cases hend : op = .giveBack
  · simp only [if_pos hend]
    subst hend
    exact giveBack_tracks hn hspare
  · simp only [if_neg hend]
    refine (execute_tracks hn hspare hprepared).bind ?_
    rintro _ k _ t ⟨-, hk⟩
    exact .ok ⟨rfl, hk⟩

/-- A run of a machine that is ready, and its echo. -/
theorem run_tracks (ready : m.Ready) (mirrors : Mirrors π m r) (budget : Nat) :
    Echoes Tracks (run budget m) (Reference.run budget r) := by
  induction budget generalizing m r π with
  | zero => exact .ok ⟨rfl, π, mirrors⟩
  | succ budget ih =>
      refine Echoes.bind ((step_tracks ready mirrors).conj ready.step) ?_
      rintro _ n status s ⟨⟨rfl, π', hn⟩, hcontinues⟩
      cases status with
      | running => exact ih hcontinues hn
      | halted => exact .ok ⟨rfl, π', hn⟩

end Machine

end Lox
