import Lox.Proofs.Compile.Operands.Steps
import Lox.Proofs.Compile.Resolution

/-!
# Names in a compilation with a log

Without a log, the search for a name in the functions around collects its issues, and they are
reported when it is over. With a log, every issue is reported where it comes up, beside the demand
that it is about. It comes to the same: a report does not depend on the drafts, and the search does
not depend on what is reported.

A function that is not the one being compiled may be the one that captures too much.

## Main definitions

* `Compiler.reports` — issues reported one after another.
* `Compiler.Answers` — a step whose answer and whose issues are known.

## Main results

* `capture?_answers` — the search in the functions around.
* `resolve_logs` — what a name refers to.
-/

namespace Lox

/-- Widening a draft adds no more than the limits allow. -/
theorem Draft.Widens.fits {d d' : Draft} (widens : d.Widens d') (fits : d.Fits) : d'.Fits := by
  refine ⟨?_, widens.locals.length_eq ▸ fits.locals, widens.room fits.captures, ?_⟩ <;>
    rw [widens.rest]
  · exact fits.constants
  · exact fits.arity

namespace Compiler

variable {c c' : Compiler} {α β : Type} {whole : Bool} {name : String}

/-- Some reports in a row, about the token consumed last. -/
def reports (c : Compiler) (issues : List Issue) : Compiler :=
  issues.foldl (fun c issue => c.report c.previous issue) c

/-- What a report says does not depend on the drafts. -/
theorem report_withDrafts (c : Compiler) (token : Token) (issue : Issue) (draft : Draft)
    (enclosing : List Draft) :
    ({ c with draft, enclosing } : Compiler).report token issue =
      { c.report token issue with draft, enclosing } := by
  unfold report
  split <;> simp_all [panicking]

/-- Nor do several reports in a row. -/
theorem reports_withDrafts (c : Compiler) (issues : List Issue) (draft : Draft)
    (enclosing : List Draft) :
    ({ c with draft, enclosing } : Compiler).reports issues =
      { c.reports issues with draft, enclosing } := by
  induction issues generalizing c with
  | nil => rfl
  | cons issue issues ih =>
      simp only [reports, List.foldl_cons] at ih ⊢
      rw [report_withDrafts]
      exact ih _

/-- Complaining about several issues. -/
theorem forM_complain_run (issues : List Issue) (c : Compiler) :
    issues.forM complain c = .ok () (c.reports issues) := by
  induction issues generalizing c with
  | nil => rfl
  | cons issue issues ih => exact ih _

/-- A step that gives an answer, whatever is the case, and reports some issues. It keeps the
invariant under a condition. -/
def Answers (whole : Bool) (ok : Prop) (x : LogM α) (c : Compiler) (a : α) (issues : List Issue) :
    Prop :=
  ∃ log, x.run c = .ok (a, log) (c.reports issues) ∧
    (c.Fits → ok → Kept whole c log (c.reports issues))

namespace Answers

variable {ok ok' : Prop} {x : LogM α} {f : α → LogM β} {a : α} {b : β} {issues issues' : List Issue}

theorem pure (a : α) : Answers whole ok (Pure.pure a) c a [] :=
  ⟨[], rfl, fun fits _ => .same fits rfl rfl⟩

theorem bind (first : Answers whole ok x c a issues)
    (second : Answers whole ok (f a) (c.reports issues) b issues') :
    Answers whole ok (x >>= f) c b (issues ++ issues') := by
  obtain ⟨log, hfirst, hkept⟩ := first
  obtain ⟨log', hsecond, hkept'⟩ := second
  have hreports : (c.reports issues).reports issues' = c.reports (issues ++ issues') :=
    List.foldl_append.symm
  rw [hreports] at hsecond hkept'
  exact ⟨log ++ log', run_bind_of_ok hfirst hsecond, fun fits hok =>
    (hkept fits hok).trans (hkept' (hkept fits hok).fits hok)⟩

/-- A last step that only rearranges the answer. -/
theorem map (first : Answers whole ok x c a issues) (f : α → β) :
    Answers whole ok (x >>= fun a => Pure.pure (f a)) c (f a) issues := by
  have hmapped : Answers whole ok (x >>= fun a => Pure.pure (f a)) c (f a) (issues ++ []) :=
    first.bind (.pure (f a))
  rwa [List.append_nil] at hmapped

theorem mono (answers : Answers whole ok x c a issues) (weaker : ok' → ok) :
    Answers whole ok' x c a issues := by
  obtain ⟨log, hrun, hkept⟩ := answers
  exact ⟨log, hrun, fun fits hok => hkept fits (weaker hok)⟩

end Answers

/-- A cast of a number that is below 256 as long as the condition holds. -/
theorem byteOf_answers {ok : Prop} {number : Nat} (small : ok → number < 256) :
    Answers whole ok (Logged.byteOf number) c (UInt8.ofNat number) [] :=
  ⟨_, rfl, fun fits hok => .cast fits fun _ => toNat_ofNat_of_lt (small hok)⟩

/-- The slot of a local that is found in a draft. -/
theorem mention_answers {d : Draft} {name : String} {found : Nat × Local}
    (isFound : d.local? name = some found) :
    Answers whole d.Fits (Logged.mention found) c (UInt8.ofNat found.1)
      (Draft.mentionIssues found.2) := by
  have hissues : Answers whole d.Fits
      (liftM ((Draft.mentionIssues found.2).forM complain) : LogM Unit) c ()
      (Draft.mentionIssues found.2) := by
    refine ⟨[], run_lift_of_ok (forM_complain_run _ c), fun fits _ => ?_⟩
    unfold Draft.mentionIssues
    split
    · exact .report fits _ rfl
    · exact .same fits rfl rfl
  have hsmall : d.Fits → found.1 < 256 := fun fits =>
    Nat.lt_of_lt_of_le (Draft.findLocal?_lt isFound) fits.locals
  have hmention : Answers whole d.Fits (Logged.mention found) c (UInt8.ofNat found.1)
      (Draft.mentionIssues found.2 ++ []) := hissues.bind (byteOf_answers hsmall)
  rwa [List.append_nil] at hmention

/-- A captured variable that is new is demanded. -/
theorem addCapture_answers (d : Draft) (wanted : Capture) :
    Answers whole d.Fits (Logged.addCapture d wanted) c
      ((d.addCapture wanted).1, (d.addCapture wanted).2.1) (d.addCapture wanted).2.2 := by
  unfold Logged.addCapture Draft.addCapture
  cases hfind : d.captures.findIdx? (· = wanted) with
  | some i =>
      refine (byteOf_answers fun fits => ?_).map fun byte => (byte, d)
      obtain ⟨hi, -, -⟩ := Array.findIdx?_eq_some_iff_getElem.mp hfind
      exact Nat.lt_of_lt_of_le hi fits.captures
  | none =>
      by_cases hfull : d.captures.size = Draft.maxCaptures
      · simp only [hfull, if_true]
        exact ⟨_, rfl, fun fits _ => .beyond fits c.previous (Nat.le_refl 256)⟩
      · simp only [hfull, if_false]
        refine ⟨_, rfl, fun fits hd => ?_⟩
        have hroom : d.captures.size < 256 := Nat.lt_of_le_of_ne hd.captures hfull
        exact (Kept.within fits c.previous hroom).trans
          (.cast fits fun _ => toNat_ofNat_of_lt hroom)

/-- The search in the functions around. -/
theorem capture?_answers (d : Draft) (outer : List Draft) :
    Answers whole (∀ e ∈ d :: outer, e.Fits) (Logged.capture? name d outer) c
      ((d.capture? name outer).index, (d.capture? name outer).draft,
        (d.capture? name outer).enclosing) (d.capture? name outer).issues := by
  induction outer generalizing d c with
  | nil => exact .pure _
  | cons o outer ih =>
      unfold Logged.capture? Draft.capture?
      cases hlocal : o.local? name with
      | some found =>
          refine (mention_answers hlocal).mono (fun hfits => hfits o (by simp)) |>.bind ?_
          exact ((addCapture_answers d _).mono fun hfits => hfits d (by simp)).map _
      | none =>
          have hpassed := (ih (c := c) o).mono fun hfits : ∀ e ∈ d :: o :: outer, e.Fits =>
            fun e he => hfits e (List.mem_cons_of_mem _ he)
          cases hindex : (o.capture? name outer).index with
          | none =>
              rw [hindex] at hpassed
              simp only [hindex]
              rw [← List.append_nil (o.capture? name outer).issues]
              exact hpassed.bind (.pure _)
          | some passed =>
              rw [hindex] at hpassed
              simp only [hindex]
              refine hpassed.bind ?_
              exact ((addCapture_answers d _).mono fun hfits => hfits d (by simp)).map _

/-- The search adds no more than the limits allow. -/
theorem capture?_fits {d : Draft} {outer : List Draft} (fits : ∀ e ∈ d :: outer, e.Fits) :
    ∀ e ∈ (d.capture? name outer).draft :: (d.capture? name outer).enclosing, e.Fits := by
  induction outer generalizing d with
  | nil => exact fits
  | cons o outer ih =>
      obtain ⟨hd, hout⟩ := List.forall_mem_cons.mp fits
      have hcapture : ∀ wanted, (d.addCapture wanted).2.1.Fits := fun wanted =>
        (Draft.addCapture_widens d wanted).fits hd
      unfold Draft.capture?
      cases hlocal : o.local? name with
      | some found =>
          obtain ⟨ho, hothers⟩ := List.forall_mem_cons.mp hout
          exact List.forall_mem_cons.mpr ⟨hcapture _,
            List.forall_mem_cons.mpr ⟨(Draft.widens_captureLocal o _).fits ho, hothers⟩⟩
      | none =>
          cases hindex : (o.capture? name outer).index with
          | none => simpa [hindex] using ⟨hd, List.forall_mem_cons.mp (ih hout)⟩
          | some passed => simpa [hindex] using ⟨hcapture _, List.forall_mem_cons.mp (ih hout)⟩

/-- The drafts that the search leaves are put in place when it is over. -/
theorem resolveCapture_logs (name : String) :
    Logs whole (Logged.resolveCapture name) (resolveCapture name) := by
  refine .of_run fun c => ?_
  let found := c.draft.capture? name c.enclosing
  have hsearch : Answers whole c.Fits (Logged.capture? name c.draft c.enclosing) c
      (found.index, found.draft, found.enclosing) found.issues :=
    capture?_answers c.draft c.enclosing
  obtain ⟨log, hrun, hkept⟩ := hsearch
  have hplaced : c.Fits → Kept whole (c.reports found.issues) []
      { c.reports found.issues with draft := found.draft, enclosing := found.enclosing } :=
    fun fits => .same (capture?_fits fits) rfl rfl
  refine ⟨found.index, log ++ [], _, ?_, ?_, fun fits => (hkept fits fits).trans (hplaced fits)⟩
  · rw [Logged.resolveCapture, run_read]
    exact run_bind_of_ok hrun rfl
  · change (found.issues.forM complain >>= fun _ => Pure.pure found.index) _ = _
    rw [bind_of_ok (forM_complain_run _ _), reports_withDrafts]
    rfl

/-- A local is mentioned in the state that it was found in. -/
theorem resolve_logs (name : String) : Logs whole (Logged.resolve name) (resolve name) := by
  refine .of_at fun c => .read ?_
  cases hlocal : c.draft.local? name with
  | none =>
      refine Logs.at (.bind (resolveCapture_logs name) fun index => ?_) c
      cases index with
      | none => exact .bind (nameConstant_logs name) fun _ => .pure _
      | some index => exact .pure _
  | some found =>
      have hmention : Answers whole c.draft.Fits (Logged.mention found) c
          (UInt8.ofNat found.1) (Draft.mentionIssues found.2) := mention_answers hlocal
      obtain ⟨log, hrun, hkept⟩ := hmention.map Reference.slot
      refine .of_run hrun ?_ fun fits => hkept fits (fits _ (List.mem_cons_self ..))
      exact bind_of_ok (forM_complain_run _ c)

end Compiler

end Lox
