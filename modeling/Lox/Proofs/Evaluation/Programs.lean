import Lox.Proofs.Evaluation.Statements

/-!
# Calls and programs are followed

A call takes one unit of fuel and one step of the machine, and what the body of a function does
takes the rest. So calls are followed, by induction on the fuel. A program is run like the body of a
function, but when it is done the run ends.

## Main definitions

* `Eval.Tallies` — runs of a script, and the result of an evaluation.

## Main results

* `obeys` — calls are followed.
* `runScript_tallies` — programs are followed.
-/

namespace Lox.Eval

variable {α : Type} {p : Printout} {n : Nat} {w : World} {r s : Reference} {F : Site} {K : Context}
  {own around : List String} {ip : Nat} {d : Datum} {f : Function} {bs : List UInt8}
  {inner : List Variable}

/-! ### Calls -/

/-- The code of a function stands at its beginning. -/
theorem Site.reads_code (F : Site) : F.Reads 0 F.closure.template.code := fun i _ => by simp

/-- A function that ends without a value gives `nil`. -/
theorem nil_follows {good : α → World → Reference → Prop} {x : EStateM.Result Stop World α}
    (stands : Stands p F own w [] ip r) (reads : F.Reads ip OpCode.pushNil.plain)
    (rest : ∀ s, Yields p F own [] (ip + 1) .nil w s → Follows p n good x s) :
    Follows p n good x r :=
  Follows.apart (stands.plain_follows reads rfl (by decide) fun _ hs => push_answers hs .nil) rest

/-- Calls of functions are followed. -/
theorem obeys (p : Printout) (n : Nat) : Obeys p n := by
  induction n with
  | zero =>
      intro F f args w r s _ _ _ _ _
      exact .exhausted (show Reference.run 0 r = .ok .running r from rfl) (Nat.le_refl 0)
  | succ n ih =>
      intro F f args w r s realizes length inner step stands
      obtain ⟨K, around, bs, declared, knows, constants, inScope, encodes, mentions, code⟩ :=
        realizes.code
      have hosts : F.Hosts K f.parameters.reverse around := { knows with
        constants, deep := fun _ => inner }
      have hreads := F.reads_code
      rw [code] at hreads
      rw [← inScope] at mentions
      have hbody := encodes.follows ih hosts mentions stands hreads.left.left
      rw [invoke, bind_of_ok (get_apply w), bind_of_ok (modify_apply _ w), ← inScope]
      refine (Follows.bind hbody fun result w' t ht => ?_).paid step
      rw [bind_of_ok (modify_apply _ w')]
      have hdone : ∀ {d : Datum} {u : Reference}, Returned p F d w' u →
          Returned p F d { w' with locals := w.locals } u := fun returned =>
        { returned.withLocals w.locals with
          kept := returned.kept, calls := returned.calls, lays := returned.lays }
      cases ht with
      | back _ returned => exact .here ⟨hdone returned, rfl⟩
      | on ht =>
          refine nil_follows ht hreads.left.right fun u hu => ?_
          exact giveBack_follows hu (by simpa [← Nat.add_assoc] using hreads.right) inner
            fun v hv => ⟨hdone hv, rfl⟩

/-! ### Programs -/

/-- What runs of a script come to, compared with the result of an evaluation. -/
inductive Tallies (p : Printout) (fuel : Nat)
    (runs : Nat → EStateM.Result Fault Reference Outcome) : EStateM.Result Stop World Unit → Prop
  | finished {budget : Nat} {w : World} {s : Reference} : runs budget = .ok .finished s →
      Agrees p w s → Tallies p fuel runs (.ok () w)
  | failed {budget : Nat} {w : World} {s : Reference} {cause : Cause} {trace : List TraceLine} :
      runs budget = .ok (.failed ⟨cause, trace⟩) s → Agrees p w s →
        Tallies p fuel runs (.error (.raised cause) w)
  | paused {budget : Nat} {w : World} {s : Reference} : runs budget = .ok .paused s →
      fuel ≤ budget + 1 → Tallies p fuel runs (.error .exhausted w)
  | overflow {budget : Nat} {x : EStateM.Result Stop World Unit} {s : Reference}
      {trace : List TraceLine} : runs budget = .ok (.failed ⟨.stackOverflow, trace⟩) s →
        Tallies p fuel runs x
  | stuck {budget : Nat} {x : EStateM.Result Stop World Unit} {f : Fault} {s : Reference} :
      runs budget = .error f s → Tallies p fuel runs x

variable {program : List Stmt} {t : Template} {constants : List Constant}

/-- The code of a script is that of its program. -/
theorem realizes_of_script (script : Encoding.Script program t constants)
    (mentions : Stmt.MentionsAll Plain false [] [] program) :
    Realizes ⟨none, [], program⟩ { template := t, constants } := by
  obtain ⟨bs, vs, code, names, encodes⟩ := script.code
  exact ⟨script.name, script.arity, ⟨constants, ⟨vs, []⟩, [], false⟩, [], bs, [],
    ⟨names, fun L hL => by cases hL⟩, rfl, rfl, encodes, mentions, code⟩

/-- A script starts in front of its code, unless the stack has no room for it. -/
theorem start_cases (script : Encoding.Script program t constants)
    (mentions : Stmt.MentionsAll Plain false [] [] program) (agrees : Agrees p w r)
    (calls : r.calls = []) (stack : r.stack = #[]) :
    (∃ i s, Reference.start t constants r = .error i s ∧ Breaks i) ∨
      ∃ F s, Reference.start t constants r = .ok () s ∧
        F.closure = { template := t, constants } ∧ F.outer = [] ∧
        Stands p F [] { w with
          callables := w.callables.push (.function ⟨none, [], program⟩), locals := [] } [] 0 s := by
  have hmade := agrees.make (.function (realizes_of_script script mentions))
  have hlays : Reference.Lays r.store r.stack [] := stack ▸ .nil r.store
  have hpush := push_lays hmade hlays (.callable r.callables.size)
  rw [Reference.start, bind_of_ok (show Reference.make _ r = .ok _ _ from rfl)]
  generalize hpushed : Reference.push _ _ = pushed at hpush
  cases hpush with
  | breaks hbreaks => exact .inl ⟨_, _, bind_of_error hpushed, hbreaks⟩
  | @ok _ _ s hs =>
      obtain ⟨hagrees, hdata, hcalls, hcallables⟩ := hs
      have hknown : (r.callables.push (.closure { template := t, constants }))[r.callables.size]? =
          some (.closure { template := t, constants }) := by simp
      have hfound : Reference.demand (s.closure? r.callables.size) s =
          .ok { template := t, constants } s := by
        rw [Reference.closure?, hcallables, hknown]
        rfl
      rw [bind_of_ok hpushed, Reference.call, bind_of_ok (get_apply s), bind_of_ok hfound]
      have hsize := hdata.size
      refine .inr ⟨⟨_, r.callables.size, _, [], [], hknown⟩,
        { s with calls := [{ callee := r.callables.size, base := 0 }] }, ?_, rfl, rfl, ?_⟩
      · rw [if_neg (not_not_intro script.arity.symm), hcalls, calls, if_neg (by decide),
          if_neg (by simp [hsize]), modify_apply, hcalls, hsize, calls]
        rfl
      · exact { (hagrees.withStack s.store s.stack _).withLocals [] with
          kept := by
            rw [hcallables]
            exact .refl _
          calls := rfl
          lays := hdata
          names := rfl }

/-- A program does what its declarations do, one after another. -/
theorem program_succ (n : Nat) (program : List Stmt) (w : World) :
    Eval.program (n + 1) program w =
      match statements (invoke n) n false program { w with
        callables := w.callables.push (.function ⟨none, [], program⟩), locals := [] } with
      | .ok _ w' => .ok () { w' with locals := w.locals }
      | .error e w' => .error e w' := by
  rw [Eval.program, bind_of_ok (show make _ w = .ok _ _ from rfl), invoke, bind_assoc,
    bind_of_ok (get_apply _), bind_assoc, bind_of_ok (modify_apply _ _), bind_assoc]
  split
  · rename_i result w' hx
    exact (bind_of_ok hx).trans rfl
  · rename_i e w' hx
    exact bind_of_error hx

/-- The body of a script is followed up to the instruction that ends the script. -/
theorem body_follows (script : Encoding.Script program t constants)
    (mentions : Stmt.MentionsAll Plain false [] [] program)
    (closure : F.closure = { template := t, constants }) (outer : F.outer = [])
    (stands : Stands p F [] w [] 0 r) :
    Follows p n (fun (_ : Option Datum) w s => ∃ own ip, Yields p F own [] ip .nil w s ∧
        F.Reads ip OpCode.giveBack.plain)
      (statements (invoke n) n false program w) r := by
  obtain ⟨bs, vs, code, names, encodes⟩ := script.code
  have hosts : F.Hosts ⟨constants, ⟨vs, []⟩, [], false⟩ [] [] :=
    { own := names, around := fun L hL => by cases hL
      constants := by rw [closure], deep := fun hne => absurd rfl hne }
  have hreads := F.reads_code
  rw [closure, code] at hreads
  refine (encodes.follows (obeys p n) hosts mentions stands hreads.left.left).onward ?_
  rintro result w' s hs
  cases hs with
  | back inner => exact absurd outer inner
  | on hs =>
      refine nil_follows hs hreads.left.right fun u hu => .here ⟨_, _, hu, ?_⟩
      simpa [← Nat.add_assoc] using hreads.right

/-- Programs are followed. -/
theorem runScript_tallies (script : Encoding.Script program t constants)
    (mentions : Stmt.MentionsAll Plain false [] [] program) (agrees : Agrees p w r)
    (calls : r.calls = []) (stack : r.stack = #[]) (fuel : Nat) :
    Tallies p fuel (fun budget => Reference.runScript budget t constants r)
      (Eval.program fuel program w) := by
  rcases start_cases script mentions agrees calls stack with
    ⟨i, s, hstart, hbreaks⟩ | ⟨F, s, hstart, hclosure, houter, hstands⟩
  · have hruns : ∀ budget, ((do Reference.start t constants; Reference.run budget :
        Reference.Act Status) r) = .error i s := fun budget => bind_of_error hstart
    cases hbreaks with
    | fault f => exact .stuck (show Reference.runScript 0 t constants r = .error f s by
        rw [Reference.runScript, hruns])
    | overflow trace =>
      exact .overflow (show Reference.runScript 0 t constants r = .ok (.failed _) s by
        rw [Reference.runScript, hruns])
  have hruns : ∀ budget, ((do Reference.start t constants; Reference.run budget :
      Reference.Act Status) r) = Reference.run budget s := fun budget => bind_of_ok hstart
  cases fuel with
  | zero => exact .paused (show Reference.runScript 0 t constants r = .ok .paused s by
      rw [Reference.runScript, hruns]; rfl) (Nat.zero_le _)
  | succ n =>
      have hbody := body_follows (n := n) script mentions hclosure houter hstands
      have hended : ∀ {budget : Nat} {result : EStateM.Result Interruption Reference Status},
          Reference.run budget s = result → ((do Reference.start t constants; Reference.run budget :
            Reference.Act Status) r) = result := fun h => (hruns _).trans h
      rw [program_succ]
      generalize statements (invoke n) n false program _ = x at hbody
      cases hbody with
      | @exhausted w' _ u count hrun hle =>
          exact .paused (show Reference.runScript count t constants r = .ok .paused u by
            rw [Reference.runScript, hended hrun]) (Nat.succ_le_succ hle)
      | @raised cause w' trace _ u v hcomes hstep hagrees =>
          obtain ⟨count, hcount⟩ := hcomes.run
          have hfails :
              Reference.runScript (count + 1) t constants r = .ok (.failed ⟨cause, trace⟩) v := by
            rw [Reference.runScript, hended ((hcount 1).trans (Reference.run_of_error hstep))]
          exact .failed hfails hagrees
      | @breaks _ _ u v i hcomes hstep hbreaks =>
          obtain ⟨count, hcount⟩ := hcomes.run
          have hrun := hended ((hcount 1).trans (Reference.run_of_error hstep))
          cases hbreaks with
          | fault f =>
              exact .stuck (show Reference.runScript (count + 1) t constants r = .error f v by
                rw [Reference.runScript, hrun])
          | overflow trace =>
              have hfails : Reference.runScript (count + 1) t constants r =
                  .ok (.failed ⟨.stackOverflow, trace⟩) v := by
                rw [Reference.runScript, hrun]
              exact .overflow hfails
      | @ok _ w' _ u hcomes hgood =>
          obtain ⟨own, ip, hu, hreads⟩ := hgood
          obtain ⟨v, hstep, hagrees⟩ := giveBack_halts hu hreads houter
          obtain ⟨count, hcount⟩ := hcomes.run
          exact .finished (show Reference.runScript (count + 1) t constants r = .ok .finished v by
            rw [Reference.runScript, hended ((hcount 1).trans (Reference.run_of_halted hstep))])
            (hagrees.withLocals w.locals)

end Lox.Eval
