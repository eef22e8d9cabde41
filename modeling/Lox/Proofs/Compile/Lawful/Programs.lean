import Lox.Proofs.Compile.Lawful.Declarations
import Lox.Proofs.Compile.Totality

/-!
# A program that keeps the rules is compiled

The script is compiled at a place without functions around it, so it captures nothing. All of its
declarations are consumed silently, and so nothing has been reported at the end of the input.

## Main results

* `program_quiet` — nothing is wrong with a program that keeps the rules.
* `compile_lawful` — it is compiled, unless the heap overflows.
-/

namespace Lox

open Grammar

variable {tokens : TokenStream} {held : List Handle} {heap : Heap} {ss : List Stmt}

namespace Compiler

variable {c c' : Compiler} {W : List (List (Nat × Nat))} {P P' : List Draft} {room k m steps : Nat}
  {ts : List Token} {u : Unit} {script : Handle}

/-- The end of the input is consumed. -/
theorem Stands.advance_end (stands : c.Stands W P room []) :
    ∃ c', Compiler.advance c = .ok () c' ∧ c'.Stands W P room [] := by
  obtain ⟨c', hrun, hfaces, -⟩ := stands.sees.faces.advance
  obtain ⟨-, hreads⟩ := advance_reads hrun hfaces.quiet
  have hrest := (hreads stands.sees.faces.fed.final stands.sees.faces.fed.pending).rest
  have hdraft : c'.draft = c.draft := by rw [hrest]
  have henclosing : c'.enclosing = c.enclosing := by rw [hrest]
  have hend : c'.current.kind = .endOfInput := hfaces.current
  exact ⟨c', hrun, stands.withDrafts ⟨hfaces, by rw [ahead, if_pos hend]⟩ hdraft henclosing⟩

/-- All declarations up to the end of the input. -/
theorem Row.program_stands (row : Row W P P' ts k m) (n : Nat)
    (stands : c.Stands W P (k + room) ts)
    (run : programDeclarations (declarationAt n) steps c = .ok u c') : c'.Stands W P' room [] := by
  induction row generalizing c steps with
  | nil =>
      cases steps with
      | zero => cases run
      | succ steps =>
          have hend : c.current.kind = .endOfInput := stands.current
          obtain ⟨d, hadvance, hstands⟩ := stands.advance_end
          rw [programDeclarations, bind_of_ok (accept_of_eq hend hadvance)] at run
          cases run
          exact Nat.zero_add room ▸ hstands
  | @cons _ _ _ ts us _ _ _ _ begins first others ih =>
      cases steps with
      | zero => cases run
      | succ steps =>
          have hmore : c.current.kind ≠ .endOfInput := fun hend => by
            have hbegins := begins us
            rw [← stands.current, hend] at hbegins
            cases hbegins
          rw [programDeclarations, bind_of_ok (accept_of_ne hmore)] at run
          obtain ⟨_, mid, hfirst, run⟩ := bind_eq_ok_iff.mp run
          rw [Nat.add_assoc] at stands
          have hlast : upcoming [] ≠ .elseWord := by decide
          have hbehind := others.behind hlast
          rw [List.append_nil] at hbehind
          exact ih (first n stands hbehind hfirst).1 run

/-- The place of the script. -/
def scriptPlace : Draft := { name := none, isScript := true }

theorem placed_script : Placed scriptPlace [] false [""] [] := by
  refine ⟨rfl, rfl, rfl, fun l hl => ?_, fun hinner => absurd rfl hinner⟩
  obtain rfl := List.mem_singleton.mp hl
  exact ⟨0, Nat.le_refl _, rfl⟩

/-- The first token leaves all of them ahead. -/
theorem stands_start (final : tokens.final.kind = .endOfInput)
    (proper : ∀ t ∈ tokens.pending, t.kind ≠ .endOfInput ∧ t.kind ≠ .malformed)
    (bound : k ≤ Chunk.maxConstants) : ∃ c, advance (start tokens held heap) = .ok () c ∧
      c.Stands [[]] [scriptPlace] k tokens.pending := by
  have hreal : ∀ t ∈ tokens.pending, t.kind ≠ .endOfInput := fun t ht => (proper t ht).1
  obtain ⟨hfaces, -⟩ := faces_pull (c := start tokens held heap) ⟨rfl, rfl⟩ final hreal
    fun t ht => (proper t ht).2
  have hrest := pull_rest (start tokens held heap) tokens.pending
  have hdraft : ((start tokens held heap).pull tokens.pending).draft = scriptPlace := by
    rw [hrest]
    rfl
  have henclosing : ((start tokens held heap).pull tokens.pending).enclosing = [] := by
    rw [hrest]
    rfl
  refine ⟨(start tokens held heap).pull tokens.pending, rfl,
    ⟨hfaces, ahead_pull final hreal hfaces.quiet⟩, ?_, ?_, ?_⟩
  · rw [place, hdraft, henclosing]
    rfl
  · rw [drafts, hdraft, henclosing]
    exact ⟨⟨by decide, .nil, by simp, by simp [scriptPlace], by simp, by simp⟩, trivial⟩
  · rw [hdraft]
    simpa [scriptPlace] using bound

/-- Nothing is wrong with a program that keeps the rules. -/
theorem program_quiet (final : tokens.final.kind = .endOfInput)
    (proper : ∀ t ∈ tokens.pending, t.kind ≠ .endOfInput ∧ t.kind ≠ .malformed)
    (parsed : Declarations tokens.pending ss) (lawful : Stmt.LawfulProgram ss)
    (run : program steps (start tokens held heap) = .ok script c') : c'.Quiet := by
  obtain ⟨c, hadvance, hstands⟩ := @stands_start tokens held heap _ final proper lawful.constants
  have hcaptured : outsideAll (Stmt.effectsAll false [""] [] ss) ⊆ [] := by
    rw [Stmt.outsideAll_program]
    exact List.nil_subset _
  have hrow := declarations_row parsed (W := []) placed_script lawful.rules hcaptured
    fun hlocal => by cases hlocal
  rw [program, bind_of_ok hadvance] at run
  obtain ⟨_, mid, hdeclarations, hfinish⟩ := bind_eq_ok_iff.mp run
  have hmid := hrow.program_stands steps
    (hstands.mono (Nat.le_of_eq (Nat.add_zero _))) hdeclarations
  obtain ⟨hend, -⟩ :=
    finishFunction_stays (hmid.mono (Nat.le_of_eq (Nat.zero_add 0))) trivial hfinish
  exact hend.sees.faces.quiet

end Compiler

/-- A program that keeps the rules is compiled, unless the bytes that its tokens are charged for do
not fit into a machine word. -/
theorem compile_lawful (final : tokens.final.kind = .endOfInput)
    (proper : ∀ t ∈ tokens.pending, t.kind ≠ .endOfInput ∧ t.kind ≠ .malformed)
    (valid : heap.Valid) (live : ∀ h ∈ held, heap.Live h)
    (readable : ∀ t ∈ tokens.pending, t.Readable)
    (parsed : Declarations tokens.pending ss) (lawful : Stmt.LawfulProgram ss) :
    ∃ heap', (∃ script, compile tokens held heap = .ok (.ok script) heap') ∨
      (compile tokens held heap = .error .overflow heap' ∧
        maxWord < (heap.bytes + tokens.cost) * heap.policy.growth) := by
  obtain ⟨-, heap', hcompiled | ⟨d, ds, hrejected⟩ | hoverflow | ⟨-, t, ht, hunreadable⟩⟩ :=
    compile_cases final valid live
  · exact ⟨heap', .inl hcompiled⟩
  · exfalso
    unfold compile at hrejected
    split at hrejected
    · rename_i script c hprogram
      have hquiet := Compiler.program_quiet final proper parsed lawful hprogram
      have hnone : c.reported.isEmpty = true := by
        simp [Compiler.reported, hquiet.alarm, hquiet.diagnostics]
      rw [if_pos hnone] at hrejected
      cases hrejected
    · cases hrejected
  · exact ⟨heap', .inr hoverflow⟩
  · exact absurd (readable t ht) hunreadable

end Lox
