import Lox.Proofs.Evaluation.Standing
import Lox.Proofs.Reference.Runs

/-!
# Following an evaluation

A machine follows an evaluation if it comes, step by step, to a state that the result of the
evaluation tells. If the evaluation raises a runtime error then the machine raises it, too, and if
the evaluation runs out of fuel then the machine is still running after as many steps. The one
excuse of a machine is that it gets stuck or that its stack is full.

## Main definitions

* `Eval.Answers` — a result of the evaluator and that of one instruction.
* `Eval.Follows` — a result of the evaluator and a machine that is to come to it.

## Main results

* `Follows.bind` — evaluations one after another.
* `Follows.of_step` — an instruction.
-/

namespace Lox.Eval

variable {α β : Type} {p : Printout} {n : Nat} {w : World} {r s t : Reference} {F : Site}
  {own : List String} {temps : List Datum} {ip : Nat}

/-- Interruptions of a machine that no evaluation knows: it is stuck, or its stack is full. -/
inductive Breaks : Interruption → Prop
  | fault (f : Fault) : Breaks (.fault f)
  | overflow (trace : List TraceLine) : Breaks (.raised ⟨.stackOverflow, trace⟩)

/-! ### Instructions -/

/-- An instruction gives what the evaluator gives. -/
inductive Answers (p : Printout) (good : α → World → Reference → Prop) :
    EStateM.Result Stop World α → EStateM.Result Interruption Reference Unit → Prop
  | ok {a : α} {w : World} {s : Reference} : good a w s → Answers p good (.ok a w) (.ok () s)
  | raised {cause : Cause} {w : World} {trace : List TraceLine} {s : Reference} : Agrees p w s →
      Answers p good (.error (.raised cause) w) (.error (.raised ⟨cause, trace⟩) s)
  | breaks {x : EStateM.Result Stop World α} {i : Interruption} {s : Reference} : Breaks i →
      Answers p good x (.error i s)

variable {good : α → World → Reference → Prop} {good' : β → World → Reference → Prop}
  {x : EStateM.Result Stop World α}

/-- What must be there is there, or the machine is stuck. -/
theorem answers_of_demand {o : Option α} {f : α → Reference.Act Unit}
    {x : EStateM.Result Stop World β} (there : ∀ a, o = some a → Answers p good' x (f a r)) :
    Answers p good' x ((Reference.demand o >>= f) r) := by
  cases o with
  | none => exact .breaks (.fault _)
  | some a => exact there a rfl

/-- Raising a runtime error. Without the lines of all active calls the machine gets stuck. -/
theorem raise_cases (cause : Cause) (r : Reference) :
    (∃ trace, ∀ γ, (Reference.raise cause : Reference.Act γ) r =
        .error (.raised ⟨cause, trace⟩) { r with stack := #[], calls := [] }) ∨
      ∀ γ, (Reference.raise cause : Reference.Act γ) r = .error (.fault .outOfRange) r := by
  simp only [Reference.raise, bind_of_ok (get_apply r)]
  cases r.calls.mapM r.line with
  | none => exact .inr fun _ => rfl
  | some trace => exact .inl ⟨trace, fun _ => rfl⟩

/-- The machine raises the error that the evaluator raises, whatever else it was to do. -/
theorem raise_bind_answers {γ : Type} {f : γ → Reference.Act Unit} (agrees : Agrees p w r)
    (cause : Cause) :
    Answers p good (.error (.raised cause) w) ((Reference.raise cause >>= f) r) := by
  rcases raise_cases cause r with ⟨trace, hraise⟩ | hstuck
  · rw [bind_of_error (hraise γ)]
    exact .raised (agrees.withStack r.store #[] [])
  · rw [bind_of_error (hstuck γ)]
    exact .breaks (.fault _)

/-- The machine raises the error that the evaluator raises. -/
theorem raise_answers (agrees : Agrees p w r) (cause : Cause) :
    Answers p good (.error (.raised cause) w) ((Reference.raise cause : Reference.Act Unit) r) := by
  rw [← bind_pure (Reference.raise cause : Reference.Act Unit)]
  exact raise_bind_answers agrees cause

/-- What the evaluator gives in the end may be told apart from what the machine has done. -/
theorem Answers.as {a : α} {b : β} {w' : World} {y : EStateM.Result Interruption Reference Unit}
    (answers : Answers p good (.ok a w) y) (there : ∀ s, good a w s → good' b w' s) :
    Answers p good' (.ok b w') y := by
  cases answers with
  | ok hgood => exact .ok (there _ hgood)
  | breaks hbreaks => exact .breaks hbreaks

/-- An instruction may have more to do when the evaluator is done. -/
theorem Answers.then {a : α} {u : Reference.Act Unit} {f : Unit → Reference.Act Unit}
    {y : EStateM.Result Stop World β} (first : Answers p good (.ok a w) (u r))
    (rest : ∀ s, good a w s → Answers p good' y (f () s)) : Answers p good' y ((u >>= f) r) := by
  generalize hu : u r = result at first
  cases first with
  | ok hgood =>
      rw [bind_of_ok hu]
      exact rest _ hgood
  | breaks hbreaks =>
      rw [bind_of_error hu]
      exact .breaks hbreaks

/-- A full stack is an excuse for anything. -/
theorem overflow_answers :
    Answers p good x ((Reference.raise .stackOverflow : Reference.Act Unit) r) := by
  rcases raise_cases .stackOverflow r with ⟨trace, hraise⟩ | hstuck
  · rw [hraise]
    exact .breaks (.overflow trace)
  · rw [hstuck]
    exact .breaks (.fault _)

/-! ### Evaluations -/

/-- A machine follows an evaluation, if need be for a count of steps. -/
inductive Follows (p : Printout) (n : Nat) (good : α → World → Reference → Prop) :
    EStateM.Result Stop World α → Reference → Prop
  | ok {a : α} {w : World} {r s : Reference} : r.Comes s → good a w s →
      Follows p n good (.ok a w) r
  | raised {cause : Cause} {w : World} {trace : List TraceLine} {r s t : Reference} : r.Comes s →
      Reference.step s = .error (.raised ⟨cause, trace⟩) t → Agrees p w t →
      Follows p n good (.error (.raised cause) w) r
  | exhausted {w : World} {r s : Reference} {count : Nat} :
      Reference.run count r = .ok .running s → n ≤ count → Follows p n good (.error .exhausted w) r
  | breaks {x : EStateM.Result Stop World α} {r s t : Reference} {i : Interruption} : r.Comes s →
      Reference.step s = .error i t → Breaks i → Follows p n good x r

namespace Follows

/-- What follows from a machine that has come further. -/
theorem after (comes : r.Comes s) (follows : Follows p n good x s) : Follows p n good x r := by
  cases follows with
  | ok hcomes hgood => exact .ok (comes.trans hcomes) hgood
  | raised hcomes hstep hagrees => exact .raised (comes.trans hcomes) hstep hagrees
  | @exhausted _ _ _ count hrun hle =>
      obtain ⟨more, hmore⟩ := comes.run
      exact .exhausted ((hmore count).trans hrun) (Nat.le_trans hle (Nat.le_add_left _ _))
  | breaks hcomes hstep hbreaks => exact .breaks (comes.trans hcomes) hstep hbreaks

/-- A step pays for one unit of fuel. -/
theorem paid (first : Reference.step r = .ok .running s) (follows : Follows p n good x s) :
    Follows p (n + 1) good x r := by
  cases follows with
  | ok hcomes hgood => exact .ok ((Reference.Comes.single first).trans hcomes) hgood
  | raised hcomes hstep hagrees =>
      exact .raised ((Reference.Comes.single first).trans hcomes) hstep hagrees
  | exhausted hrun hle =>
      exact .exhausted ((Reference.run_of_running first).trans hrun) (Nat.succ_le_succ hle)
  | breaks hcomes hstep hbreaks =>
      exact .breaks ((Reference.Comes.single first).trans hcomes) hstep hbreaks

/-- Fewer steps will do. -/
theorem mono {m : Nat} (le : m ≤ n) (follows : Follows p n good x r) : Follows p m good x r := by
  cases follows with
  | ok hcomes hgood => exact .ok hcomes hgood
  | raised hcomes hstep hagrees => exact .raised hcomes hstep hagrees
  | exhausted hrun hle => exact .exhausted hrun (Nat.le_trans le hle)
  | breaks hcomes hstep hbreaks => exact .breaks hcomes hstep hbreaks

/-- A machine that is there already. -/
theorem here {a : α} (there : good a w r) : Follows p n good (.ok a w) r := .ok (.refl r) there

/-- The machine goes on where the evaluator is done. -/
theorem onward {further : α → World → Reference → Prop} (follows : Follows p n good x r)
    (goesOn : ∀ a w s, good a w s → Follows p n further (.ok a w) s) : Follows p n further x r := by
  cases follows with
  | ok hcomes hgood => exact (goesOn _ _ _ hgood).after hcomes
  | raised hcomes hstep hagrees => exact .raised hcomes hstep hagrees
  | exhausted hrun hle => exact .exhausted hrun hle
  | breaks hcomes hstep hbreaks => exact .breaks hcomes hstep hbreaks

/-- The machine has something to do of which the evaluator does not know. -/
theorem apart {a : α} {y : EStateM.Result Stop World β} (follows : Follows p n good (.ok a w) r)
    (rest : ∀ s, good a w s → Follows p n good' y s) : Follows p n good' y r := by
  cases follows with
  | ok hcomes hgood => exact (rest _ hgood).after hcomes
  | breaks hcomes hstep hbreaks => exact .breaks hcomes hstep hbreaks

/-- Less may be asked of the machine. -/
theorem imp {weaker : α → World → Reference → Prop} (follows : Follows p n good x r)
    (weaken : ∀ a w s, good a w s → weaker a w s) : Follows p n weaker x r :=
  follows.onward fun a w s hgood => .here (weaken a w s hgood)

/-- An evaluation that goes on after another one. -/
theorem bind {x : Act α} {f : α → Act β} (first : Follows p n good (x w) r)
    (rest : ∀ a w' s, good a w' s → Follows p n good' (f a w') s) :
    Follows p n good' ((x >>= f) w) r := by
  generalize hx : x w = result at first
  cases first with
  | ok hcomes hgood =>
      rw [bind_of_ok hx]
      exact (rest _ _ _ hgood).after hcomes
  | raised hcomes hstep hagrees =>
      rw [bind_of_error hx]
      exact .raised hcomes hstep hagrees
  | exhausted hrun hle =>
      rw [bind_of_error hx]
      exact .exhausted hrun hle
  | breaks hcomes hstep hbreaks => exact .breaks hcomes hstep hbreaks

/-- A step that gives what the evaluator gives. -/
theorem of_step {u : Reference.Act Unit}
    (step : Reference.step r = (do u; return .running : Reference.Act Status) s)
    (answers : Answers p good x (u s)) : Follows p n good x r := by
  generalize hexecute : u s = y at answers
  cases answers with
  | ok hgood =>
      rw [bind_of_ok hexecute] at step
      exact .ok (.single step) hgood
  | raised hagrees =>
      rw [bind_of_error hexecute] at step
      exact .raised (.refl r) step hagrees
  | breaks hbreaks =>
      rw [bind_of_error hexecute] at step
      exact .breaks (.refl r) step hbreaks

end Follows

/-! ### Reading an instruction -/

/-- The machine reads the instruction in front of it and stands behind it then. -/
theorem Stands.fetch {op : OpCode} {operand : Nat} {bs : List UInt8}
    (stands : Stands p F own w temps ip r) (reads : F.Reads ip bs)
    (form : OpCode.Form op operand bs) :
    ∃ s, Reference.fetch r = .ok (op, operand) s ∧
      Stands p F own w temps (ip + 1 + op.width) s := by
  obtain ⟨k, hk, htemplate, -⟩ := stands.closure
  refine ⟨_, Reference.fetch_of_reads stands.calls hk form fun i hi => ?_, ?_⟩
  · simpa [htemplate] using reads i hi
  · exact { stands with calls := rfl }

/-- The machine reads an instruction other than the end of a call. -/
theorem Stands.step {op : OpCode} {operand : Nat} {bs : List UInt8}
    (stands : Stands p F own w temps ip r) (reads : F.Reads ip bs)
    (form : OpCode.Form op operand bs) (ne : op ≠ .giveBack) :
    ∃ s, Reference.step r =
        (do Reference.execute op operand; return .running : Reference.Act Status) s ∧
      Stands p F own w temps (ip + 1 + op.width) s := by
  obtain ⟨s, hfetch, hs⟩ := stands.fetch reads form
  refine ⟨s, ?_, hs⟩
  rw [Reference.step, bind_of_ok hfetch]
  exact congrFun (if_neg ne) s

/-- The machine follows the evaluator with one instruction. -/
theorem Stands.follows {op : OpCode} {operand : Nat} {bs : List UInt8}
    (stands : Stands p F own w temps ip r) (reads : F.Reads ip bs)
    (form : OpCode.Form op operand bs) (ne : op ≠ .giveBack)
    (answers : ∀ s, Stands p F own w temps (ip + 1 + op.width) s →
      Answers p good x (Reference.execute op operand s)) : Follows p n good x r := by
  obtain ⟨s, hstep, hs⟩ := stands.step reads form ne
  exact .of_step hstep (answers s hs)

end Lox.Eval
