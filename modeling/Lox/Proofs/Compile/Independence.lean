import Lox.Proofs.Compile.Steady
import Lox.Proofs.Heap.History

/-!
# Compilation does not depend on the heap

A source is compiled on two heaps that have nothing to do with each other. They may hold any
objects, whose handles may dangle; their collectors may strike at any time; and a literal of the
source may be a string that is found in one heap and allocated in the other. Still the outcome is
the same: either the same diagnostics, or functions that resolve to the same constant, down to
the code, the lines and the constants of all functions inside them. What the callers hold is
untouched.

Nothing is assumed of the heaps but that their callers hold live objects, and that objects which
have been marked ahead of a collection do not lead out of range. The latter says nothing where
nothing has been marked.

## Main definitions

* `Compiled.Same` — the same outcome once handles are resolved.
* `CompilesOn` — how the compilation of a source may end.

## Main results

* `compile_independent` — the same outcome on any two heaps.
-/

namespace Lox

/-- The same outcome of two compilations once handles are resolved: the same diagnostics, or
functions that resolve to the same constant. -/
inductive Compiled.Same (heap heap' : Heap) : Except (List Diagnostic) Handle →
    Except (List Diagnostic) Handle → Prop
  | accepted {g h : Handle} {k : Constant} : heap.Holds (.object g) k → heap'.Holds (.object h) k →
      Same heap heap' (.ok g) (.ok h)
  | rejected (ds : List Diagnostic) : Same heap heap' (.error ds) (.error ds)

/-- The compilation of a source ends with an outcome, and all that the caller's handles reach is
live and the same object as before, unless a collection finds that the next threshold would leave
the machine word. -/
def CompilesOn (heap : Heap) (held : List Handle) (source : String) : Prop :=
  (∃ r mid, compile (.ofSource source) held heap = .ok r mid ∧
    ∀ g, heap.Reaches held g → mid.Live g ∧ mid.object? g = heap.object? g) ∨
  ∃ mid, compile (.ofSource source) held heap = .error .overflow mid ∧ mid.Overfull

variable {heap heap' : Heap} {held held' : List Handle}

/-- A heap that a history leads to is fit for roots that reach live objects only. -/
theorem Heap.Arises.fit {admits : Object → Prop} (arises : heap.Arises admits)
    (live : ∀ g, heap.Reaches held g → heap.Live g)
    (marked : ∀ g, heap.Reaches heap.gray g → heap.InRange g) : heap.Fit held :=
  ⟨arises.orderly, live, marked⟩

/-- Compiling on two heaps that are fit. -/
theorem Heap.Fit.compile_agrees (fit : heap.Fit held) (fit' : heap'.Fit held') (source : String) :
    Agree (fun r mid r' mid' => heap.Fits heap' held held' mid mid' ∧ Compiled.Same mid mid' r r')
      (fun _ _ _ _ => False) Heap.Lost (compile (.ofSource source) held heap)
      (compile (.ofSource source) held' heap') := by
  have holds : (Correspondence.ofFit heap heap' held held').holds heap
    (heap.resolving heap') heap' :=
    ⟨rfl, fit, fit', .refl _ _, .refl _ _⟩
  refine (Lox.compile_agrees holds (terminated_ofSource source)).imp ?_
  rintro r mid r' mid' ⟨_, ⟨rfl, hfits⟩, hcompiled⟩
  refine ⟨hfits, ?_⟩
  cases hcompiled with
  | accepted hpair =>
      obtain ⟨k, hk, hk'⟩ := hpair
      exact .accepted hk hk'
  | rejected ds => exact .rejected ds

/-- Compiling on a heap that is fit ends as it should. -/
theorem Heap.Fit.compilesOn (fit : heap.Fit held) (source : String) :
    CompilesOn heap held source := by
  rcases (fit.compile_agrees fit source).diagonal with
    ⟨r, mid, hrun, hfits, -⟩ | ⟨f, mid, hrun, hfail | ⟨rfl, hover⟩⟩
  · refine .inl ⟨r, mid, hrun, fun g hreach => ?_⟩
    obtain ⟨o, ho⟩ := fit.live g hreach
    have hkept := hfits.keeps g o hreach ho
    exact ⟨⟨o, hkept⟩, hkept.trans ho.symm⟩
  · exact hfail.elim
  · exact .inr ⟨mid, hrun, hover⟩

/-- The outcome of a compilation does not depend on the heap. On any two heaps that histories
lead to, with any handles held that reach live objects only, the compilations of a source end
with the same outcome, and what is held is live and unchanged; no fault but an overflow of the
threshold is possible. -/
theorem compile_independent (arises : heap.Arises fun _ => True)
    (arises' : heap'.Arises fun _ => True) (live : ∀ g, heap.Reaches held g → heap.Live g)
    (live' : ∀ g, heap'.Reaches held' g → heap'.Live g)
    (marked : ∀ g, heap.Reaches heap.gray g → heap.InRange g)
    (marked' : ∀ g, heap'.Reaches heap'.gray g → heap'.InRange g) (source : String) :
    CompilesOn heap held source ∧ CompilesOn heap' held' source ∧
      ∀ r mid r' mid', compile (.ofSource source) held heap = .ok r mid →
        compile (.ofSource source) held' heap' = .ok r' mid' → Compiled.Same mid mid' r r' := by
  have fit := arises.fit live marked
  have fit' := arises'.fit live' marked'
  refine ⟨fit.compilesOn source, fit'.compilesOn source, fun r mid r' mid' hrun hrun' => ?_⟩
  have agree := fit.compile_agrees fit' source
  rw [hrun, hrun'] at agree
  cases agree with
  | ok h => exact h.2

namespace Heap

/-- All objects of the knot refer to live ones. -/
theorem closed_knot : knot.Closed := by
  rintro ⟨i⟩ o ho c hc
  rcases i with _ | _ | _ | i
  iterate 3
    obtain rfl := Option.some.inj ho
    obtain rfl : c = _ := by simpa [Object.children] using hc
    exact ⟨_, rfl⟩
  simp [object?, knot] at ho

end Heap

/-- A program with a function inside a function, and with one literal twice. -/
def nesting : String := "fun f(a) \x7b fun g() \x7b print a + \"f\"; \x7d g(); \x7d f(\"f\");"

/-- The script that a compilation ends with. -/
def script? (result : EStateM.Result Fault Heap (Except (List Diagnostic) Handle)) :
    Option Handle :=
  match result with
  | .ok (.ok script) _ => some script
  | .ok (.error _) _ => none
  | .error _ _ => none

/-- A compilation that ends with a script. -/
theorem eq_ok_of_script? {result : EStateM.Result Fault Heap (Except (List Diagnostic) Handle)}
    {script : Handle} (found : script? result = some script) :
    ∃ mid, result = .ok (.ok script) mid := by
  unfold script? at found
  split at found
  · obtain rfl := Option.some.inj found
    exact ⟨_, rfl⟩
  · cases found
  · cases found

/-- A program compiled beside the knot, and on an empty heap that is collected at every
allocation. The two scripts differ in their handles only. -/
theorem compile_independent_knot :
    ∃ mid mid', compile (.ofSource nesting) [⟨0⟩] Heap.knot = .ok (.ok ⟨7⟩) mid ∧
      compile (.ofSource nesting) [] (.empty { stress := true }) = .ok (.ok ⟨4⟩) mid' ∧
      Compiled.Same mid mid' (.ok ⟨7⟩) (.ok ⟨4⟩) := by
  have first : script? (compile (.ofSource nesting) [⟨0⟩] Heap.knot) = some ⟨7⟩ := by
    decide +kernel
  have second : script? (compile (.ofSource nesting) [] (.empty { stress := true })) =
    some ⟨4⟩ := by
    decide +kernel
  obtain ⟨mid, hrun⟩ := eq_ok_of_script? first
  obtain ⟨mid', hrun'⟩ := eq_ok_of_script? second
  have live : ∀ g, Heap.knot.Reaches [⟨0⟩] g → Heap.knot.Live g := fun g =>
    Heap.closed_knot.live_of_reaches (by simp [Heap.Live, Heap.object?, Heap.knot])
  have marked : ∀ g, Heap.knot.Reaches Heap.knot.gray g → Heap.knot.InRange g := fun g hreach =>
    (Heap.closed_knot.live_of_reaches (by simp [Heap.Live, Heap.object?, Heap.knot]) hreach).inRange
  have nothing : ∀ {P : Handle → Prop} g, (Heap.empty { stress := true }).Reaches [] g → P g :=
    fun g hreach => hreach.induct (by simp) (by simp [Heap.empty, Heap.object?])
  exact ⟨mid, mid', hrun, hrun', (compile_independent Heap.arises_knot (.empty _) live nothing
    marked nothing nesting).2.2 _ _ _ _ hrun hrun'⟩

end Lox
