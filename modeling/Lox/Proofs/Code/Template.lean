import Mathlib.Data.List.Forall2
import Lox.Proofs.Heap.Allocation

/-!
# Functions with all handles resolved

A compiled function refers to its name and its constants by handle. Its **template** is the
same function with the handles resolved: it holds texts and, for the functions among its
constants, their templates. Templates are therefore independent of the heap and of what a
collection does to it.

## Main definitions

* `Template`, `Constant` — resolved functions and resolved constants.
* `Heap.Holds` — a value of the heap resolves to a constant.
* `Heap.Keeps` — a later heap has all that given roots reach.

## Main results

* `Holds.later`, `Holds.earlier` — what the roots reach resolves to the same constants later on.
-/

namespace Lox

/-- What a compiled function is apart from its constants. -/
structure Template where
  /-- How many parameters it has. -/
  arity : Nat
  /-- How many variables it captures. -/
  upvalueCount : Nat
  /-- Its name; the script has none. -/
  name : Option String
  /-- Its instruction bytes. -/
  code : List UInt8
  /-- The source line of each byte. -/
  lines : List Nat

/-- A constant with all handles resolved. -/
inductive Constant where
  | number (x : Float)
  | text (s : String)
  | function (t : Template) (constants : List Constant)

/-- A constant that an expression may stand for by itself: a number or a text. -/
def Constant.isLiteral : Constant → Bool
  | .number _ | .text _ => true
  | .function _ _ => false

/-- The template of a function with a given name. -/
def Function.template (f : Function) (name : Option String) : Template :=
  { arity := f.arity, upvalueCount := f.upvalueCount, name,
    code := f.chunk.code.toList, lines := f.chunk.lines.toList }

namespace Heap

variable {heap heap' : Heap} {h g : Handle} {v : Value} {k : Constant} {roots more : List Handle}

/-- The name of a function has a given text. -/
def Named (heap : Heap) : Option Handle → Option String → Prop
  | none, none => True
  | some h, some text => heap.object? h = some (.string text)
  | _, _ => False

/-- A value resolves to a constant. -/
inductive Holds (heap : Heap) : Value → Constant → Prop
  | number {x : Float} : Holds heap (.number x) (.number x)
  | text {h : Handle} {s : String} : heap.object? h = some (.string s) →
      Holds heap (.object h) (.text s)
  | function {h : Handle} {f : Function} {name : Option String} {constants : List Constant} :
      heap.object? h = some (.function f) → heap.Named f.name name →
      f.chunk.constants.size = constants.length →
      (∀ (i : Nat) v k, f.chunk.constants[i]? = some v → constants[i]? = some k →
        Holds heap v k) →
        Holds heap (.object h) (.function (f.template name) constants)

/-- The constants of a chunk resolve one by one. -/
def HoldsAll (heap : Heap) (values : Array Value) (constants : List Constant) : Prop :=
  List.Forall₂ heap.Holds values.toList constants

/-- Resolving one by one is resolving at every index. -/
theorem holdsAll_iff {values : Array Value} {constants : List Constant} :
    heap.HoldsAll values constants ↔ values.size = constants.length ∧
      ∀ (i : Nat) v k, values[i]? = some v → constants[i]? = some k → heap.Holds v k := by
  unfold HoldsAll
  rw [List.forall₂_iff_get]
  simp only [Array.length_toList]
  refine and_congr_right fun hsize => ?_
  constructor
  · intro hall i v k hv hk
    obtain ⟨hi, rfl⟩ := Array.getElem?_eq_some_iff.mp hv
    obtain ⟨hi', rfl⟩ := List.getElem?_eq_some_iff.mp hk
    simpa using hall i (by simpa using hi) hi'
  · intro hall i hi hi'
    refine hall i _ _ ?_ ?_ <;> simp_all

/-- A function resolves to a template with its constants. -/
theorem holds_function_iff {f : Function} (hf : heap.object? h = some (.function f)) :
    heap.Holds (.object h) k ↔ ∃ name constants, k = .function (f.template name) constants ∧
      heap.Named f.name name ∧ heap.HoldsAll f.chunk.constants constants := by
  constructor
  · rintro (_ | htext | ⟨hg, hname, hsize, hall⟩)
    · rw [hf] at htext
      cases htext
    · obtain rfl : f = _ := by simpa [hf] using hg
      exact ⟨_, _, rfl, hname, holdsAll_iff.mpr ⟨hsize, hall⟩⟩
  · rintro ⟨name, constants, rfl, hname, hall⟩
    obtain ⟨hsize, hall⟩ := holdsAll_iff.mp hall
    exact .function hf hname hsize hall

/-- A constant that is a string resolves to its text. -/
theorem Holds.eq_text (holds : heap.Holds (.object h) k) {s : String}
    (hs : heap.object? h = some (.string s)) : k = .text s := by
  cases holds with
  | text htext => simpa [htext] using hs
  | function hf => simp [hf] at hs

/-- A name has one text. -/
theorem Named.unique {name : Option Handle} {text text' : Option String}
    (named : heap.Named name text) (named' : heap.Named name text') : text = text' := by
  cases name <;> cases text <;> cases text' <;> simp_all [Named]

/-- A value resolves to one constant. -/
theorem Holds.unique {k' : Constant} (left : heap.Holds v k) (right : heap.Holds v k') :
    k = k' := by
  induction left generalizing k' with
  | number =>
      cases right
      rfl
  | text hs => exact (right.eq_text hs).symm
  | @function h f name constants hf hname hsize hall ih =>
      obtain ⟨name', constants', rfl, hname', hall'⟩ := (holds_function_iff hf).mp right
      obtain ⟨hsize', hall'⟩ := holdsAll_iff.mp hall'
      obtain rfl := hname.unique hname'
      have hconstants : constants = constants' := by
        refine List.ext_getElem (hsize.symm.trans hsize') fun i hi hi' => ?_
        have hvalue := Array.getElem?_eq_getElem (hsize.symm ▸ hi)
        exact ih i _ _ hvalue (List.getElem?_eq_getElem hi)
          (hall' i _ _ hvalue (List.getElem?_eq_getElem hi'))
      rw [hconstants]

/-! ### Later heaps -/

/-- A later heap **keeps** the objects that given roots reach. -/
def Keeps (heap : Heap) (roots : List Handle) (heap' : Heap) : Prop :=
  ∀ g o, heap.Reaches roots g → heap.object? g = some o → heap'.object? g = some o

/-- A heap keeps everything in itself. -/
theorem Keeps.refl (heap : Heap) (roots : List Handle) : heap.Keeps roots heap :=
  fun _ _ _ ho => ho

/-- What the roots reach is reached in the later heap, too. -/
theorem Keeps.reaches (keeps : heap.Keeps roots heap') (reaches : heap.Reaches roots h) :
    heap'.Reaches roots h := by
  induction reaches with
  | root hmem => exact .root hmem
  | child hreach ho hchild ih => exact .child ih (keeps _ _ hreach ho) hchild

/-- What is kept twice is kept, if the roots of the second time reach those of the first. -/
theorem Keeps.trans {third : Heap} (first : heap.Keeps roots heap')
    (second : heap'.Keeps more third) (subset : ∀ g ∈ roots, heap'.Reaches more g) :
    heap.Keeps roots third := by
  intro g o hreach ho
  refine second g o ?_ (first g o hreach ho)
  exact (first.reaches hreach).induct subset fun _ _ hg hg' _ hc => hg.child hg' hc

/-- Fewer roots keep less. -/
theorem Keeps.mono (keeps : heap.Keeps more heap') (subset : ∀ g ∈ roots, g ∈ more) :
    heap.Keeps roots heap' :=
  fun g o hreach ho => keeps g o (hreach.mono subset) ho

/-- Live roots stay live. -/
theorem Keeps.live (keeps : heap.Keeps roots heap') (reaches : heap.Reaches roots h)
    (live : heap.Live h) : heap'.Live h := by
  obtain ⟨o, ho⟩ := live
  exact ⟨o, keeps h o reaches ho⟩

/-- Allocating keeps what the roots reach. -/
theorem Allocated.keeps {o : Object} (allocated : Allocated heap roots o h heap') :
    heap.Keeps roots heap' :=
  fun _ _ hreach ho => allocated.kept ho hreach

/-- Interning keeps what the roots reach. -/
theorem InternedAs.keeps {text : String} (interned : InternedAs heap roots text h heap') :
    heap.Keeps roots heap' :=
  fun _ _ hreach ho => interned.kept ho hreach

/-- What live roots reach is the same object before. -/
theorem Keeps.earlier (keeps : heap.Keeps roots heap') (closed : heap.Closed)
    (live : ∀ g ∈ roots, heap.Live g) (reaches : heap.Reaches roots h) {o : Object}
    (ho : heap'.object? h = some o) : heap.object? h = some o := by
  obtain ⟨old, hold⟩ := closed.live_of_reaches live reaches
  rw [← ho, keeps h old reaches hold, hold]

/-! ### Resolving in another heap -/

/-- A set of handles is **shared** when another heap has the same strings and functions there,
and the set holds all that these refer to. -/
def Shared (heap heap' : Heap) (S : Handle → Prop) : Prop :=
  ∀ g o, S g → heap.object? g = some o → o.kind = .string ∨ o.kind = .function →
    heap'.object? g = some o ∧ ∀ c, .object c ∈ o.children → S c

/-- A value of a shared set resolves to the same constant in the other heap. -/
theorem Holds.transfer {S : Handle → Prop} (holds : heap.Holds v k) (shared : heap.Shared heap' S)
    (mem : ∀ g, v = .object g → S g) : heap'.Holds v k := by
  induction holds with
  | number => exact .number
  | text hs => exact .text (shared _ _ (mem _ rfl) hs (.inl rfl)).1
  | @function h f name constants hf hname hsize _ ih =>
      obtain ⟨hf', hchildren⟩ := shared _ _ (mem _ rfl) hf (.inr rfl)
      refine .function hf' ?_ hsize fun i v k hv hk => ih i v k hv hk fun g hg => ?_
      · cases hn : f.name with
        | none => cases name <;> simp_all [Named]
        | some g =>
            cases name with
            | none => simp [hn, Named] at hname
            | some text =>
                rw [hn] at hname
                have hg : S g := hchildren g (by simp [Object.children, hn])
                exact (shared g _ hg hname (.inl rfl)).1
      · obtain ⟨hi, rfl⟩ := Array.getElem?_eq_some_iff.mp hv
        exact hchildren g (by simp [Object.children, ← hg])

/-- A name that the roots reach has the same text in the later heap. -/
theorem Named.later {name : Option Handle} {text : Option String} (named : heap.Named name text)
    (keeps : heap.Keeps roots heap') (reaches : ∀ g, name = some g → heap.Reaches roots g) :
    heap'.Named name text := by
  cases name <;> cases text <;> simp only [Named] at named ⊢
  exact keeps _ _ (reaches _ rfl) named

/-- A constant that the roots reach is the same constant in the later heap. -/
theorem Holds.later (holds : heap.Holds v k) (keeps : heap.Keeps roots heap')
    (reaches : ∀ g, v = .object g → heap.Reaches roots g) : heap'.Holds v k :=
  holds.transfer (fun g o hg ho _ => ⟨keeps g o hg ho, fun _ hc => hg.child ho hc⟩) reaches

/-- A constant that live roots reach was the same constant before. -/
theorem Holds.earlier (holds : heap'.Holds v k) (keeps : heap.Keeps roots heap')
    (closed : heap.Closed) (live : ∀ g ∈ roots, heap.Live g)
    (reaches : ∀ g, v = .object g → heap.Reaches roots g) : heap.Holds v k := by
  refine holds.transfer (fun g o hg ho _ => ?_) reaches
  have ho' := keeps.earlier closed live hg ho
  exact ⟨ho', fun _ hc => hg.child ho' hc⟩

end Heap

end Lox
