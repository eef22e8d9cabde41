import Lox.Proofs.Heap.History
import Lox.Proofs.Heap.Renaming

/-!
# Questions to heaps that are alike

What a heap is asked of a handle has the same answer as what a heap that is like it is asked of
its partner, or meets the same fault. The texts of values are the same.

A host function is given handles and can be asked nothing about them. It must not look at them
by itself either.

## Main definitions

* `Answers` — two answers that are related, or the same fault.
* `HostFunction.Equivariant`, `Heap.Obliging` — host functions that do not look at handles.

## Main results

* `Matches.function`, `Matches.closure`, `Matches.cell`, `Matches.display` — the questions.
-/

namespace Lox

/-- A host function that does not look at handles: renaming those it is given renames its
result. -/
def HostFunction.Equivariant (run : HostFunction) : Prop :=
  ∀ (ρ : Renaming), ρ.OneToOne → ∀ (reading : Float) (args args' : Array Value),
    List.Forall₂ (Value.Alike ρ) args.toList args'.toList →
      (run reading args).Alike ρ (run reading args')

/-! ### Looking things up -/

/-- Two answers that are related, or the same fault. -/
inductive Answers {α β : Type} (R : α → β → Prop) : Except Fault α → Except Fault β → Prop
  | ok {a : α} {b : β} : R a b → Answers R (.ok a) (.ok b)
  | error (f : Fault) : Answers R (.error f) (.error f)

namespace Answers

variable {α β γ δ : Type} {R : α → β → Prop} {S : γ → δ → Prop}

/-- One question after another. -/
theorem bind {x : Except Fault α} {y : Except Fault β} {f : α → Except Fault γ}
    {g : β → Except Fault δ} (first : Answers R x y)
    (rest : ∀ a b, R a b → Answers S (f a) (g b)) : Answers S (x >>= f) (y >>= g) := by
  cases first with
  | ok h => exact rest _ _ h
  | error f => exact .error f

/-- Answers that are the same. -/
theorem eq {x y : Except Fault α} (answers : Answers (fun a b => b = a) x y) : y = x := by
  cases answers with
  | ok h => rw [h]
  | error => rfl

/-- The same answer. -/
theorem refl (x : Except Fault α) : Answers (fun a b => b = a) x x := by
  cases x with
  | ok a => exact .ok rfl
  | error f => exact .error f

/-- Questions about the entries of two lists. -/
theorem mapM {f : α → Except Fault γ} {g : β → Except Fault δ} {xs : List α} {ys : List β}
    (all : List.Forall₂ R xs ys) (each : ∀ x y, R x y → Answers S (f x) (g y)) :
    Answers (List.Forall₂ S) (xs.mapM f) (ys.mapM g) := by
  induction all with
  | nil => exact .ok .nil
  | cons hxy _ ih =>
      rw [List.mapM_cons, List.mapM_cons]
      refine (each _ _ hxy).bind fun a b hab => ih.bind fun as bs hall => .ok (.cons hab hall)

end Answers

namespace Heap

variable {heap heap' mid : Heap} {ρ : Renaming} {roots : List Handle} {g h : Handle} {v w : Value}
  {o o' old : Object} {text : String}

/-- The objects behind a pair. -/
theorem Matches.object (hmatches : heap.Matches ρ heap') (pair : ρ g h) :
    ∃ o o', heap.object g = .ok o ∧ heap'.object h = .ok o' ∧ o.Alike ρ o' := by
  obtain ⟨o, o', ho, ho', halike⟩ := hmatches.objects g h pair
  exact ⟨o, o', object_of_object? ho, object_of_object? ho', halike⟩

/-- The kinds of the objects behind a pair. -/
theorem Matches.kind (hmatches : heap.Matches ρ heap') (pair : ρ g h) :
    heap'.kind h = heap.kind g := by
  obtain ⟨o, o', ho, ho', halike⟩ := hmatches.objects g h pair
  rw [kind_of_object? ho, kind_of_object? ho', halike.kind]

/-- The strings behind a pair. -/
theorem Matches.string (hmatches : heap.Matches ρ heap') (pair : ρ g h) :
    heap'.string h = heap.string g := by
  obtain ⟨o, o', ho, ho', halike⟩ := hmatches.object pair
  unfold Heap.string
  rw [ho, ho']
  cases halike <;> rfl

/-- The host functions behind a pair. -/
theorem Matches.native (hmatches : heap.Matches ρ heap') (pair : ρ g h) :
    heap'.native h = heap.native g := by
  obtain ⟨o, o', ho, ho', halike⟩ := hmatches.object pair
  unfold Heap.native
  rw [ho, ho']
  cases halike <;> rfl

/-- The functions behind a pair. -/
theorem Matches.function (hmatches : heap.Matches ρ heap') (pair : ρ g h) :
    Answers (fun f f' => f.Alike ρ f' ∧ heap.object? g = some (.function f)) (heap.function g)
      (heap'.function h) := by
  obtain ⟨o, o', ho, ho', halike⟩ := hmatches.object pair
  unfold Heap.function
  rw [ho, ho']
  cases halike with
  | function hf => exact .ok ⟨hf, object_eq_ok_iff.mp ho⟩
  | string | native | closure | opened | closed => exact .error _

/-- The closures behind a pair. -/
theorem Matches.closure (hmatches : heap.Matches ρ heap') (pair : ρ g h) :
    Answers (fun c c' => c.Alike ρ c' ∧ heap.object? g = some (.closure c)) (heap.closure g)
      (heap'.closure h) := by
  obtain ⟨o, o', ho, ho', halike⟩ := hmatches.object pair
  unfold Heap.closure
  rw [ho, ho']
  cases halike with
  | closure hc => exact .ok ⟨hc, object_eq_ok_iff.mp ho⟩
  | string | native | function | opened | closed => exact .error _

/-- The cells behind a pair. -/
theorem Matches.cell (hmatches : heap.Matches ρ heap') (pair : ρ g h) :
    Answers (fun c c' => (Object.cell c).Alike ρ (.cell c')) (heap.cell g) (heap'.cell h) := by
  obtain ⟨o, o', ho, ho', halike⟩ := hmatches.object pair
  unfold Heap.cell
  rw [ho, ho']
  cases halike with
  | opened slot => exact .ok (.opened slot)
  | closed hv => exact .ok (.closed hv)
  | string | native | function | closure => exact .error _

/-- Whether values that are alike are strings. -/
theorem Matches.isString (hmatches : heap.Matches ρ heap') (alike : v.Alike ρ w) :
    heap'.isString w = heap.isString v := by
  cases alike with
  | nil | bool | number => rfl
  | object pair =>
      unfold Heap.isString
      simp only [hmatches.kind pair]

/-- The texts of functions that are alike. -/
theorem Matches.displayFunction (hmatches : heap.Matches ρ heap') {f f' : Function}
    (alike : f.Alike ρ f') : heap'.displayFunction f' = heap.displayFunction f := by
  have hname := alike.name
  unfold Heap.displayFunction
  generalize f.name = name at hname ⊢
  generalize f'.name = name' at hname ⊢
  cases hname with
  | none => rfl
  | some hpair => simp only [hmatches.string hpair]

/-- The texts of values that are alike. -/
theorem Matches.display (hmatches : heap.Matches ρ heap') (alike : v.Alike ρ w) :
    heap'.display w = heap.display v := by
  cases alike with
  | nil | bool | number => rfl
  | object pair =>
      obtain ⟨o, o', ho, ho', halike⟩ := hmatches.object pair
      unfold Heap.display
      simp only [ho, ho']
      cases halike with
      | string | native | opened | closed => rfl
      | function hf => exact hmatches.displayFunction hf
      | closure hc =>
          refine ((hmatches.function hc.function).bind fun f f' hf => ?_).eq
          rw [hmatches.displayFunction hf.1]
          exact .refl _

/-! ### Host functions -/

/-- No host function of the heap looks at handles. -/
def Obliging (heap : Heap) : Prop :=
  ∀ h n, heap.object? h = some (.native n) → n.run.Equivariant

/-- A new object that is no host function leaves the heap obliging. -/
theorem Allocated.obliging (allocated : Allocated heap roots o h heap') (obliging : heap.Obliging)
    (other : ∀ n, o = .native n → n.run.Equivariant) : heap'.Obliging := fun g n hn => by
  rcases allocated.old hn with ⟨-, heq⟩ | ⟨-, hold⟩
  · exact other n heq.symm
  · exact obliging g n hold

/-- Interning leaves the heap obliging. -/
theorem InternedAs.obliging (interned : InternedAs heap roots text h heap')
    (obliging : heap.Obliging) : heap'.Obliging := fun g n hn => by
  rcases interned.old hn with ⟨-, heq⟩ | hold
  · cases heq
  · exact obliging g n hold

/-- A collection leaves the heap obliging. -/
theorem Collected.obliging (collected : Collected heap roots heap') (obliging : heap.Obliging) :
    heap'.Obliging := fun g n hn => obliging g n (collected.pruned.old g _ hn)

/-- Changing an object that is no host function leaves the heap obliging. -/
theorem Obliging.replace (obliging : heap.Obliging) (hold : heap.object? h = some old)
    (other : ∀ n, o ≠ .native n) : (heap.replace h o).Obliging := fun g n hn => by
  rw [object?_replace ⟨old, hold⟩] at hn
  split at hn
  · exact absurd (Option.some.inj hn) (other n)
  · exact obliging g n hn

end Heap

end Lox
