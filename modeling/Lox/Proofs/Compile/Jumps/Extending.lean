import Lox.Proofs.Compile.Imitation
import Lox.Proofs.Compile.Jumps.Sites
import Lox.Proofs.Compile.Resolution

/-!
# Steps that only write behind

Most steps of the compiler write code behind the code of the function being compiled, if they write
any. They leave the code of the functions around it as it is, even where a name makes these
functions capture a variable. What has been reported stays reported.

## Main definitions

* `Compiler.Extended`, `Compiler.Extends` — two states, and the steps from one to the other.

## Main results

* `Draft.capture?_chunk` — looking a name up writes no code.
* `Extends.closed` — whatever is made of such steps is such a step.
* `resolve_extends` — names.
-/

namespace Lox

/-- Capturing a variable writes no code. -/
theorem Draft.addCapture_chunk (d : Draft) (wanted : Capture) :
    (d.addCapture wanted).2.1.chunk = d.chunk := by
  rw [(addCapture_widens d wanted).rest]

/-- Looking a name up in the functions around writes no code. -/
theorem Draft.capture?_chunk (name : String) (d : Draft) (outer : List Draft) :
    (d.capture? name outer).draft.chunk = d.chunk ∧
      (d.capture? name outer).enclosing.map (·.chunk) = outer.map (·.chunk) := by
  induction outer generalizing d with
  | nil => exact ⟨rfl, rfl⟩
  | cons o outer ih =>
      obtain ⟨hdraft, henclosing⟩ := ih o
      unfold Draft.capture?
      cases hlocal : o.local? name with
      | some found => exact ⟨addCapture_chunk d _, rfl⟩
      | none =>
          cases hindex : (o.capture? name outer).index with
          | none => simp [hindex, hdraft, henclosing]
          | some passed => simp [hindex, hdraft, henclosing, addCapture_chunk]

namespace Compiler

variable {c c' c'' : Compiler} {α β : Type}

/-- Code is written behind the code of the function being compiled, if any is. -/
structure Extended (c c' : Compiler) : Prop where
  size : c.code.size ≤ c'.code.size
  same : ∀ i < c.code.size, c'.code[i]? = c.code[i]?
  outerCode : c'.outerCode = c.outerCode
  reported : c.reported.toList <+: c'.reported.toList

namespace Extended

theorem trans (first : Extended c c') (second : Extended c' c'') : Extended c c'' := by
  refine ⟨Nat.le_trans first.size second.size, fun i hi => ?_,
    second.outerCode.trans first.outerCode, first.reported.trans second.reported⟩
  exact (second.same i (Nat.lt_of_lt_of_le hi first.size)).trans (first.same i hi)

/-- Nothing is written. -/
theorem unwritten (code : c'.code = c.code) (outerCode : c'.outerCode = c.outerCode)
    (reported : c.reported.toList <+: c'.reported.toList) : Extended c c' :=
  ⟨Nat.le_of_eq (congrArg Array.size code.symm), fun _ _ => by rw [code], outerCode, reported⟩

/-- Only what has nothing to do with code and reports is changed. -/
theorem same_code (code : c'.code = c.code) (outerCode : c'.outerCode = c.outerCode)
    (reported : c'.reported = c.reported) : Extended c c' :=
  .unwritten code outerCode (reported ▸ List.prefix_rfl)

theorem report (c : Compiler) (token : Token) (issue : Issue) :
    Extended c (c.report token issue) := by
  refine .unwritten ?_ ?_ (reported_report c token issue)
  all_goals
    unfold Compiler.report
    split <;> rfl

end Extended

/-- A step that writes code behind the code that is there, if it writes any. -/
def Extends (y : CompileM α) : Prop := ∀ c a c', y c = .ok a c' → Extended c c'

namespace Extends

variable {y : CompileM α}

/-- A change of the draft, but not of its code. -/
theorem draft {f : Draft → Draft} (chunk : ∀ d, (f d).chunk = d.chunk) :
    Extends (modifyDraft f) := by
  rintro c _ _ ⟨⟩
  exact .same_code (congrArg Chunk.code (chunk _)) rfl rfl

/-- An operation of the heap. -/
theorem onHeap (frame : ∀ c a c', y c = .ok a c' → c' = { c with heap := c'.heap }) :
    Extends y := by
  intro c a c' run
  rw [frame c a c' run]
  exact .same_code rfl rfl rfl

end Extends

/-! ### The smallest steps -/

/-- Malformed tokens are reported on the way to the next one. -/
theorem pull_extended (c : Compiler) (pending : List Token) : Extended c (c.pull pending) := by
  induction pending generalizing c with
  | nil => exact .same_code rfl rfl rfl
  | cons t pending ih =>
      unfold pull
      split
      · exact (Extended.report c t _).trans (ih _)
      · exact .same_code rfl rfl rfl

theorem advance_extends : Extends advance := by
  rintro c _ _ ⟨⟩
  have hprevious : Extended c { c with previous := c.current } := .same_code rfl rfl rfl
  exact hprevious.trans (pull_extended _ _)

theorem complain_extends (issue : Issue) : Extends (complain issue) := by
  rintro c _ _ ⟨⟩
  exact .report c _ issue

theorem complainAhead_extends (issue : Issue) : Extends (complainAhead issue) := by
  rintro c _ _ ⟨⟩
  exact .report c _ issue

theorem emitByte_extends (byte : UInt8) : Extends (emitByte byte) := by
  rintro c _ _ ⟨⟩
  refine ⟨?_, fun i hi => ?_, rfl, List.prefix_rfl⟩
  · exact Nat.le_trans (Nat.le_succ _) (Nat.le_of_eq (Array.size_push byte).symm)
  · exact (Array.getElem?_push_lt hi).trans (Array.getElem?_eq_getElem hi).symm

theorem intern_extends (text : String) : Extends (intern text) := by
  refine .onHeap fun c h c' run => ?_
  unfold intern at run
  split at run <;> cases run
  rfl

/-- Sequences of steps that write behind write behind. -/
theorem Extends.closed : Closed fun _ => Extends where
  pure _ := by
    rintro c _ _ ⟨⟩
    exact .same_code rfl rfl rfl
  throw _ := by
    rintro c _ _ ⟨⟩
  bind first rest := by
    intro c b c' run
    obtain ⟨a, mid, hfirst, hrest⟩ := bind_eq_ok_iff.mp run
    exact (first c a mid hfirst).trans (rest a mid b c' hrest)
  read _ rest := fun c a c' run => rest c c a c' run
  advance := advance_extends
  complain _ := complain_extends _
  complainAhead _ := complainAhead_extends _
  emitByte := emitByte_extends
  intern := intern_extends
  modifyDraft chunk _ _ _ := .draft chunk

/-- Ending a panic keeps what has been reported. -/
theorem synchronize_extends : Extends synchronize := by
  refine Extends.closed.synchronize ?_
  rintro c _ _ ⟨⟩
  exact .same_code rfl rfl rfl

/-! ### Names and functions -/

theorem makeConstant_extends (value : Value) : Extends (makeConstant value) := by
  intro c index c' run
  unfold makeConstant Chunk.addConstant? at run
  split at run <;> cases run
  · rename_i hadded
    split at hadded <;> cases hadded
    exact .same_code rfl rfl rfl
  · exact .report c _ _

theorem addLocal_extends (name : String) : Extends (addLocal name) :=
  Extends.closed.read (fun _ _ => rfl) fun _ =>
    Closed.ite (complain_extends _) (.draft fun _ => rfl)

theorem countArgument_extends (count : Nat) : Extends (countArgument count) :=
  Closed.ite (complain_extends _) (Extends.closed.pure _)

theorem countParameter_extends : Extends countParameter :=
  Extends.closed.read (fun _ _ => rfl) fun _ =>
    Closed.ite (complainAhead_extends _) (.draft fun _ => rfl)

/-- Other drafts with the same code. -/
theorem Extended.withDrafts (c : Compiler) {draft : Draft} {enclosing : List Draft}
    (chunk : draft.chunk = c.draft.chunk)
    (chunks : enclosing.map (·.chunk) = c.enclosing.map (·.chunk)) :
    Extended c { c with draft, enclosing } := by
  refine .same_code (congrArg Chunk.code chunk) ?_ rfl
  have hcodes := congrArg (List.map Chunk.code) chunks
  rwa [List.map_map, List.map_map] at hcodes

theorem lookUp_extends (name : String) : Extends (lookUp name) := by
  rintro c _ _ ⟨⟩
  obtain ⟨hdraft, henclosing⟩ := Draft.capture?_chunk name c.draft c.enclosing
  exact .withDrafts c hdraft henclosing

theorem resolve_extends (name : String) : Extends (resolve name) :=
  Extends.closed.resolve complain_extends makeConstant_extends (lookUp_extends name)

theorem finishFunction_extends : Extends finishFunction := by
  refine Extends.closed.bind Extends.closed.emitReturn fun _ => .onHeap fun c h c' run => ?_
  split at run <;> cases run
  rfl

end Compiler

end Lox
