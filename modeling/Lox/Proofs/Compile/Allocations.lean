import Mathlib.Logic.Relation
import Lox.Proofs.Compile.Throughout
import Lox.Proofs.Sequencing

/-!
# What the compiler allocates

The compiler uses the heap for two things: it interns names and strings, and it allocates
functions. Whatever the tokens are, the heap that it leaves is one that such operations lead to.

## Main definitions

* `Compiler.Use`, `Compiler.Evolution` — the operations of the heap that are used.
* `Compiler.Evolves` — a step of the compiler that uses the heap for nothing else.

## Main results

* `compile_evolves` — compiling interns strings and allocates functions.
-/

namespace Lox

namespace Compiler

/-- The operations of the heap that the compiler uses. -/
inductive Use (heap : Heap) : Heap → Prop
  | intern {text : String} {roots : List Handle} {h : Handle} {heap' : Heap} :
      Heap.intern text roots heap = .ok h heap' → Use heap heap'
  | function {f : Function} {roots : List Handle} {h : Handle} {heap' : Heap} :
      Heap.allocate (.function f) roots heap = .ok h heap' → Use heap heap'

/-- The heaps that the compiler makes of a heap. -/
abbrev Evolution : Heap → Heap → Prop := Relation.ReflTransGen Use

/-- A step of the compiler that only interns strings and allocates functions. -/
def Evolves {α : Type} (x : CompileM α) : Prop :=
  ∀ c a c', x c = .ok a c' → Evolution c.heap c'.heap

/-! ### The smallest steps -/

/-- A change that leaves the heap alone. -/
theorem Evolves.change {f : Compiler → Compiler} (same : ∀ c, (f c).heap = c.heap) :
    Evolves (modify f) := by
  rintro c _ _ ⟨⟩
  rw [same]

theorem report_heap (c : Compiler) (token : Token) (issue : Issue) :
    (c.report token issue).heap = c.heap := by
  unfold report
  split <;> rfl

theorem pull_heap (c : Compiler) (tokens : List Token) : (c.pull tokens).heap = c.heap := by
  induction tokens generalizing c with
  | nil => rfl
  | cons t tokens ih =>
      unfold pull
      split
      · rw [ih, report_heap]
      · rfl

theorem makeConstant_evolves (value : Value) : Evolves (makeConstant value) := by
  intro c index c' run
  unfold makeConstant at run
  split at run <;> cases run
  · exact .refl
  · rw [report_heap]

theorem intern_evolves (text : String) : Evolves (intern text) := by
  intro c h c' run
  unfold intern at run
  split at run
  · rename_i hrun
    cases run
    exact .single (.intern hrun)
  · cases run

theorem allocateFunction_evolves : Evolves allocateFunction := by
  intro c h c' run
  unfold allocateFunction at run
  split at run
  · rename_i hrun
    cases run
    exact .single (.function hrun)
  · cases run

/-- All steps use the heap for nothing else. -/
theorem Evolves.throughout : Throughout fun _ => Evolves where
  pure _ := by
    rintro c _ _ ⟨⟩
    exact .refl
  throw _ := by
    rintro c _ _ ⟨⟩
  bind first rest := by
    intro c b c' run
    obtain ⟨a, mid, hfirst, hrest⟩ := bind_eq_ok_iff.mp run
    exact (first c a mid hfirst).trans (rest a mid b c' hrest)
  read _ rest := fun c b c' run => rest c c b c' run
  advance := .change fun _ => pull_heap _ _
  complain _ := .change fun _ => report_heap _ _ _
  complainAhead _ := .change fun _ => report_heap _ _ _
  emitByte _ := .change fun _ => rfl
  intern := intern_evolves
  modifyDraft _ _ _ _ := .change fun _ => rfl
  report _ := .change fun _ => report_heap _ _ _
  reportAhead _ := .change fun _ => report_heap _ _ _
  edit _ := .change fun _ => rfl
  makeConstant := makeConstant_evolves
  lookUp _ := by
    rintro c _ _ ⟨⟩
    exact .refl
  enterFunction _ := .change fun _ => rfl
  allocateFunction := allocateFunction_evolves
  leaveFunction := .change fun c => by cases c.enclosing <;> rfl

/-- Ending a panic has nothing to do with the heap. -/
theorem synchronize_evolves : Evolves synchronize :=
  Evolves.throughout.synchronize (.change fun _ => rfl)

end Compiler

/-- Compiling interns strings and allocates functions. -/
theorem compile_evolves {tokens : TokenStream} {held : List Handle} {heap heap' : Heap}
    {result : Except (List Diagnostic) Handle}
    (run : compile tokens held heap = .ok result heap') : Compiler.Evolution heap heap' := by
  have hprogram : Compiler.Evolves (Compiler.program (tokens.pending.length + 2)) :=
    Compiler.Evolves.throughout.program Compiler.synchronize_evolves _
  unfold compile at run
  split at run
  · rename_i hrun
    cases run
    exact hprogram (.start tokens held heap) _ _ hrun
  · cases run

end Lox
