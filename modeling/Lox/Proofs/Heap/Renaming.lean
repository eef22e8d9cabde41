import Lox.Proofs.Agreement
import Lox.Proofs.Code.Template
import Lox.Proofs.Lists

/-!
# Heaps that differ in their handles

When collections strike at different times, the same object has different handles in two
heaps, and garbage that is left in one of them is gone in the other. A *renaming* pairs the
handles of one heap with those of another, one to one. Two heaps are alike under a renaming
when the objects behind paired handles have the same contents up to the renaming; nothing is
said of objects without a partner.

An operation on two heaps that are alike gives heaps that are alike under another renaming: it
forgets the pairs that a collection has freed on either side, and pairs the new objects. The
pairs that the roots reach stay.

## Main definitions

* `Renaming`, `Value.Alike`, `Object.Alike` — contents up to a renaming.
* `Heap.Alike` — heaps that are alike.

## Main results

* `Alike.allocate`, `Alike.intern`, `Alike.replace` — the operations of the heap treat heaps that
  are alike alike.
* `Alike.collectFirst`, `Alike.collectSecond` — a collection in one of two heaps goes unnoticed.
-/

namespace Lox

/-! ### Renamings -/

/-- Pairs of handles, the first of one heap and the second of another. -/
abbrev Renaming := Handle → Handle → Prop

namespace Renaming

/-- No handle is paired twice. -/
structure OneToOne (ρ : Renaming) : Prop where
  right : ∀ g h h', ρ g h → ρ g h' → h = h'
  left : ∀ g g' h, ρ g h → ρ g' h → g = g'

/-- The pairs that are live in two heaps. -/
def within (ρ : Renaming) (heap heap' : Heap) : Renaming :=
  fun g h => ρ g h ∧ heap.Live g ∧ heap'.Live h

/-- The pairs of a renaming and one more. -/
def with' (ρ : Renaming) (g h : Handle) : Renaming :=
  fun a b => ρ a b ∨ (a = g ∧ b = h)

/-- Every handle of a list has its partner in another list, and the other way round. -/
structure Covers (ρ : Renaming) (roots roots' : List Handle) : Prop where
  right : ∀ g ∈ roots, ∃ h ∈ roots', ρ g h
  left : ∀ h ∈ roots', ∃ g ∈ roots, ρ g h

variable {ρ : Renaming} {g h : Handle}

/-- Leaving out pairs leaves a renaming one to one. -/
theorem OneToOne.within (oneToOne : ρ.OneToOne) (heap heap' : Heap) :
    (ρ.within heap heap').OneToOne :=
  ⟨fun _ _ _ h h' => oneToOne.right _ _ _ h.1 h'.1, fun _ _ _ h h' => oneToOne.left _ _ _ h.1 h'.1⟩

/-- A pair may be added unless one of its handles is paired otherwise. -/
theorem OneToOne.with' (oneToOne : ρ.OneToOne) (right : ∀ b, ρ g b → b = h)
    (left : ∀ a, ρ a h → a = g) : (ρ.with' g h).OneToOne := by
  constructor
  · rintro a b b' (hb | ⟨rfl, rfl⟩) (hb' | ⟨heq, rfl⟩)
    · exact oneToOne.right _ _ _ hb hb'
    · exact right b (heq ▸ hb)
    · exact (right b' hb').symm
    · rfl
  · rintro a a' b (hb | ⟨rfl, rfl⟩) (hb' | ⟨rfl, heq⟩)
    · exact oneToOne.left _ _ _ hb hb'
    · exact left a (heq ▸ hb)
    · exact (left a' hb').symm
    · rfl

/-- Appending handles to handles that are covered. -/
theorem Covers.append {xs ys xs' ys' : List Handle} (first : ρ.Covers xs xs')
    (second : ρ.Covers ys ys') : ρ.Covers (xs ++ ys) (xs' ++ ys') := by
  constructor
  · intro g hg
    rcases List.mem_append.mp hg with hg | hg
    · obtain ⟨h, hh, hpair⟩ := first.right g hg
      exact ⟨h, List.mem_append_left _ hh, hpair⟩
    · obtain ⟨h, hh, hpair⟩ := second.right g hg
      exact ⟨h, List.mem_append_right _ hh, hpair⟩
  · intro h hh
    rcases List.mem_append.mp hh with hh | hh
    · obtain ⟨g, hg, hpair⟩ := first.left h hh
      exact ⟨g, List.mem_append_left _ hg, hpair⟩
    · obtain ⟨g, hg, hpair⟩ := second.left h hh
      exact ⟨g, List.mem_append_right _ hg, hpair⟩

end Renaming

/-! ### Contents up to a renaming -/

/-- The same value up to a renaming. -/
inductive Value.Alike (ρ : Renaming) : Value → Value → Prop
  | nil : Alike ρ .nil .nil
  | bool (b : Bool) : Alike ρ (.bool b) (.bool b)
  | number (x : Float) : Alike ρ (.number x) (.number x)
  | object {g h : Handle} : ρ g h → Alike ρ (.object g) (.object h)

/-- The same function up to a renaming. -/
structure Function.Alike (ρ : Renaming) (f f' : Function) : Prop where
  arity : f'.arity = f.arity
  upvalueCount : f'.upvalueCount = f.upvalueCount
  name : Option.Rel ρ f.name f'.name
  code : f'.chunk.code = f.chunk.code
  lines : f'.chunk.lines = f.chunk.lines
  constants : List.Forall₂ (Value.Alike ρ) f.chunk.constants.toList f'.chunk.constants.toList

/-- The same closure up to a renaming. -/
structure Closure.Alike (ρ : Renaming) (c c' : Closure) : Prop where
  function : ρ c.function c'.function
  cells : List.Forall₂ ρ c.cells.toList c'.cells.toList
  room : c'.room = c.room

/-- The same object up to a renaming. -/
inductive Object.Alike (ρ : Renaming) : Object → Object → Prop
  | string (text : String) : Alike ρ (.string text) (.string text)
  | function {f f' : Function} : f.Alike ρ f' → Alike ρ (.function f) (.function f')
  | native (n : Native) : Alike ρ (.native n) (.native n)
  | closure {c c' : Closure} : c.Alike ρ c' → Alike ρ (.closure c) (.closure c')
  | opened (slot : Nat) : Alike ρ (.cell (.opened slot)) (.cell (.opened slot))
  | closed {v w : Value} : v.Alike ρ w → Alike ρ (.cell (.closed v)) (.cell (.closed w))

section

variable {ρ ρ' : Renaming} {g h : Handle} {v w : Value} {o o' : Object}

/-- What an object refers to is paired with what an object that is alike refers to. -/
theorem Object.Alike.children (alike : o.Alike ρ o') :
    List.Forall₂ (Value.Alike ρ) o.children o'.children := by
  cases alike with
  | string | native | opened => exact .nil
  | @function f f' hf =>
      refine List.rel_append ?_ hf.constants
      have hname := hf.name
      cases hn : f.name <;> cases hn' : f'.name <;> rw [hn, hn'] at hname <;> cases hname
      · exact .nil
      · rename_i hpair
        exact .cons (.object hpair) .nil
  | closure hc =>
      refine .cons (.object hc.function) ?_
      rw [List.forall₂_map_left_iff, List.forall₂_map_right_iff]
      exact hc.cells.imp fun _ _ hpair => .object hpair
  | closed hv => exact .cons hv .nil

/-- Only the pairs that occur in a value matter. -/
theorem Value.Alike.mono (alike : v.Alike ρ w)
    (pairs : ∀ g h, ρ g h → v = .object g → w = .object h → ρ' g h) : v.Alike ρ' w := by
  cases alike with
  | nil => exact .nil
  | bool b => exact .bool b
  | number x => exact .number x
  | object hpair => exact .object (pairs _ _ hpair rfl rfl)

/-- Only the pairs that occur in an object matter. -/
theorem Object.Alike.mono (alike : o.Alike ρ o')
    (pairs : ∀ g h, ρ g h → .object g ∈ o.children → .object h ∈ o'.children → ρ' g h) :
    o.Alike ρ' o' := by
  cases alike with
  | string text => exact .string text
  | native n => exact .native n
  | opened slot => exact .opened slot
  | @function f f' hf =>
      refine .function ⟨hf.arity, hf.upvalueCount, ?_, hf.code, hf.lines, ?_⟩
      · have hname := hf.name
        cases hn : f.name <;> cases hn' : f'.name <;> rw [hn, hn'] at hname <;> cases hname
        · exact .none
        · rename_i hpair
          exact .some (pairs _ _ hpair (by simp [Object.children, hn])
            (by simp [Object.children, hn']))
      · refine forall₂_mono hf.constants fun v hv w hw halike => halike.mono ?_
        rintro g h hpair rfl rfl
        exact pairs g h hpair (by simp [Object.children, Array.mem_toList_iff.mp hv])
          (by simp [Object.children, Array.mem_toList_iff.mp hw])
  | closure hc =>
      refine .closure ⟨pairs _ _ hc.function (by simp [Object.children])
        (by simp [Object.children]), ?_, hc.room⟩
      refine forall₂_mono hc.cells fun g hg h hh hpair => pairs g h hpair ?_ ?_
      · simp [Object.children, Array.mem_toList_iff.mp hg]
      · simp [Object.children, Array.mem_toList_iff.mp hh]
  | closed hv =>
      refine .closed (hv.mono ?_)
      rintro g h hpair rfl rfl
      exact pairs g h hpair (by simp [Object.children]) (by simp [Object.children])

/-- A value whose handle is paired with itself is like itself. -/
theorem Value.Alike.refl (pairs : ∀ g, v = .object g → ρ g g) : v.Alike ρ v := by
  cases v with
  | nil => exact .nil
  | bool b => exact .bool b
  | number x => exact .number x
  | object g => exact .object (pairs g rfl)

/-- An object whose children are paired with themselves is like itself. -/
theorem Object.Alike.refl (pairs : ∀ g, .object g ∈ o.children → ρ g g) : o.Alike ρ o := by
  have values : ∀ vs : List Value, (∀ v ∈ vs, v ∈ o.children) →
      List.Forall₂ (Value.Alike ρ) vs vs := fun vs hvs =>
    List.forall₂_same.mpr fun v hv => .refl fun g hg => pairs g (hg ▸ hvs v hv)
  cases o with
  | string text => exact .string text
  | native n => exact .native n
  | function f =>
      have hname : Option.Rel ρ f.name f.name := by
        cases hn : f.name with
        | none => exact .none
        | some g => exact .some (pairs g (by simp [Object.children, hn]))
      exact .function ⟨rfl, rfl, hname, rfl, rfl, values _ fun v hv => by
        simp [Object.children, Array.mem_toList_iff.mp hv]⟩
  | closure c =>
      refine .closure ⟨pairs _ (by simp [Object.children]),
        List.forall₂_same.mpr fun g hg => ?_, rfl⟩
      exact pairs g (by simp [Object.children, Array.mem_toList_iff.mp hg])
  | cell c =>
      cases c with
      | opened slot => exact .opened slot
      | closed w => exact .closed (.refl fun g hg => pairs g (by simp [Object.children, hg]))

/-- Objects that are alike are of the same kind. -/
theorem Object.Alike.kind (alike : o.Alike ρ o') : o'.kind = o.kind := by
  cases alike <;> rfl

end

/-! ### Heaps -/

namespace Heap

/-- The objects behind paired handles are alike. -/
structure Matches (heap : Heap) (ρ : Renaming) (heap' : Heap) : Prop where
  oneToOne : ρ.OneToOne
  objects : ∀ g h, ρ g h →
    ∃ o o', heap.object? g = some o ∧ heap'.object? h = some o' ∧ o.Alike ρ o'

/-- Two valid heaps are **alike** under a renaming when the objects behind paired handles
are. -/
structure Alike (heap : Heap) (ρ : Renaming) (heap' : Heap) : Prop extends
    Matches heap ρ heap' where
  valid : heap.Valid
  valid' : heap'.Valid

variable {heap heap' mid mid' : Heap} {ρ : Renaming} {roots roots' : List Handle} {g h h' : Handle}
  {o o' : Object}

/-- Paired handles are live. -/
theorem Matches.live (hmatches : heap.Matches ρ heap') (pair : ρ g h) :
    heap.Live g ∧ heap'.Live h := by
  obtain ⟨o, o', ho, ho', -⟩ := hmatches.objects g h pair
  exact ⟨⟨o, ho⟩, ⟨o', ho'⟩⟩

/-- The object behind the partner of a handle. -/
theorem Matches.object? (hmatches : heap.Matches ρ heap') (pair : ρ g h)
    (ho : heap.object? g = some o) : ∃ o', heap'.object? h = some o' ∧ o.Alike ρ o' := by
  obtain ⟨_, o', hfound, ho', halike⟩ := hmatches.objects g h pair
  obtain rfl := Option.some.inj (hfound.symm.trans ho)
  exact ⟨o', ho', halike⟩

/-- What the roots reach is paired with what the partners of the roots reach. -/
theorem Matches.reaches (hmatches : heap.Matches ρ heap') (covers : ρ.Covers roots roots')
    (reaches : heap.Reaches roots g) : ∃ h, ρ g h ∧ heap'.Reaches roots' h := by
  induction reaches with
  | root hmem =>
      obtain ⟨h, hmem', hpair⟩ := covers.right _ hmem
      exact ⟨h, hpair, .root hmem'⟩
  | child _ ho hchild ih =>
      obtain ⟨h, hpair, hreach⟩ := ih
      obtain ⟨o', ho', halike⟩ := hmatches.object? hpair ho
      obtain ⟨w, hw, hvalue⟩ := exists_of_forall₂ halike.children.flip hchild
      cases hvalue with
      | object hpair' => exact ⟨_, hpair', .child hreach ho' hw⟩

/-- What the partners of the roots reach is paired with what the roots reach. -/
theorem Matches.reaches_left (hmatches : heap.Matches ρ heap') (covers : ρ.Covers roots roots')
    (reaches : heap'.Reaches roots' h) : ∃ g, ρ g h ∧ heap.Reaches roots g := by
  induction reaches with
  | root hmem =>
      obtain ⟨g, hmem', hpair⟩ := covers.left _ hmem
      exact ⟨g, hpair, .root hmem'⟩
  | child _ ho hchild ih =>
      obtain ⟨g, hpair, hreach⟩ := ih
      obtain ⟨o, o', ho', hfound, halike⟩ := hmatches.objects _ _ hpair
      obtain rfl := Option.some.inj (hfound.symm.trans ho)
      obtain ⟨v, hv, hvalue⟩ := exists_of_forall₂ halike.children hchild
      cases hvalue with
      | object hpair' => exact ⟨_, hpair', .child hreach ho' hv⟩

/-- The partner of a handle that the roots reach is reached, too. -/
theorem Matches.reaches_of_pair (hmatches : heap.Matches ρ heap') (covers : ρ.Covers roots roots')
    (pair : ρ g h) (reaches : heap.Reaches roots g) : heap'.Reaches roots' h := by
  obtain ⟨h', hpair', hreach⟩ := hmatches.reaches covers reaches
  exact hmatches.oneToOne.right _ _ _ pair hpair' ▸ hreach

/-- Pruning leaves the pairs that survive on both sides. -/
theorem Matches.prune (hmatches : heap.Matches ρ heap') (first : Pruned heap roots mid)
    (second : Pruned heap' roots' mid') (closed : mid.Closed) (closed' : mid'.Closed) :
    mid.Matches (ρ.within mid mid') mid' := by
  refine ⟨hmatches.oneToOne.within _ _, fun g h ⟨hpair, ⟨o, ho⟩, ⟨o', ho'⟩⟩ => ?_⟩
  obtain ⟨found, hfound, halike⟩ := hmatches.object? hpair (first.old g o ho)
  obtain rfl := Option.some.inj ((second.old h o' ho').symm.trans hfound)
  exact ⟨o, o', ho, ho', halike.mono fun c d hcd hc hd =>
    ⟨hcd, closed g o ho c hc, closed' h o' ho' d hd⟩⟩

/-- The pairs that the roots reach survive. -/
theorem Matches.kept (hmatches : heap.Matches ρ heap') (covers : ρ.Covers roots roots')
    (first : Pruned heap roots mid) (second : Pruned heap' roots' mid') (pair : ρ g h)
    (reaches : heap.Reaches roots g) : ρ.within mid mid' g h := by
  obtain ⟨hlive, hlive'⟩ := hmatches.live pair
  exact ⟨pair, first.live hlive reaches,
    second.live hlive' (hmatches.reaches_of_pair covers pair reaches)⟩

/-- Two objects that are alike may be put behind a pair of handles that have no other
partners. -/
theorem Matches.extend (hmatches : mid.Matches ρ mid')
    (view : ∀ a, heap.object? a = if a = h then some o else mid.object? a)
    (view' : ∀ b, heap'.object? b = if b = h' then some o' else mid'.object? b)
    (same : o.Alike ρ o') (right : ∀ b, ρ h b → b = h') (left : ∀ a, ρ a h' → a = h) :
    heap.Matches (ρ.with' h h') heap' := by
  refine ⟨hmatches.oneToOne.with' right left, ?_⟩
  have hsame : o.Alike (ρ.with' h h') o' := same.mono fun _ _ hpair _ _ => .inl hpair
  rintro a b (hpair | ⟨rfl, rfl⟩)
  · by_cases heq : a = h
    · obtain rfl : b = h' := right b (heq ▸ hpair)
      exact ⟨o, o', by rw [view, if_pos heq], by rw [view', if_pos rfl], hsame⟩
    · have hne : b ≠ h' := fun heq' => heq (left a (heq' ▸ hpair))
      obtain ⟨old, old', hold, hold', halike⟩ := hmatches.objects a b hpair
      exact ⟨old, old', by rw [view, if_neg heq, hold], by rw [view', if_neg hne, hold'],
        halike.mono fun _ _ hcd _ _ => .inl hcd⟩
  · exact ⟨o, o', by rw [view, if_pos rfl], by rw [view', if_pos rfl], hsame⟩

/-- The renaming that pairs every live handle with itself. -/
def same (heap : Heap) : Renaming := fun g h => h = g ∧ heap.Live g

/-- A valid heap is like itself. -/
theorem Valid.alike (valid : heap.Valid) : heap.Alike heap.same heap := by
  refine ⟨⟨⟨?_, ?_⟩, ?_⟩, valid, valid⟩
  · rintro g h h' ⟨rfl, -⟩ ⟨rfl, -⟩
    rfl
  · rintro g g' h ⟨rfl, -⟩ ⟨rfl, -⟩
    rfl
  · rintro g h ⟨rfl, o, ho⟩
    exact ⟨o, o, ho, ho, .refl fun c hc => ⟨rfl, valid.closed _ o ho c hc⟩⟩

/-! ### Operations -/

/-- What an operation with given roots leaves of two heaps that are alike: they are alike under
another renaming, and what the roots reach is untouched, with its partners. -/
structure Onward (heap : Heap) (ρ : Renaming) (roots : List Handle) (mid : Heap) (ρ' : Renaming)
    (mid' : Heap) : Prop where
  alike : mid.Alike ρ' mid'
  keeps : heap.Keeps roots mid
  pairs : ∀ g h, ρ g h → heap.Reaches roots g → ρ' g h

variable {ρ' ρ'' : Renaming} {last last' : Heap} {more : List Handle}

/-- Where nothing happens, nothing is lost. -/
theorem Onward.refl (alike : heap.Alike ρ heap') (roots : List Handle) :
    heap.Onward ρ roots heap ρ heap' :=
  ⟨alike, .refl _ _, fun _ _ hpair _ => hpair⟩

/-- One operation after another. -/
theorem Onward.trans (first : heap.Onward ρ roots mid ρ' mid')
    (second : mid.Onward ρ' roots last ρ'' last') : heap.Onward ρ roots last ρ'' last' :=
  ⟨second.alike, first.keeps.trans second.keeps fun _ hg => .root hg, fun g h hpair hreach =>
    second.pairs g h (first.pairs g h hpair hreach) (first.keeps.reaches hreach)⟩

/-- Fewer roots keep less. -/
theorem Onward.mono (onward : heap.Onward ρ more mid ρ' mid') (subset : ∀ g ∈ roots, g ∈ more) :
    heap.Onward ρ roots mid ρ' mid' :=
  ⟨onward.alike, onward.keeps.mono subset,
    fun g h hpair hreach => onward.pairs g h hpair (hreach.mono subset)⟩

/-- The roots keep their partners. -/
theorem Onward.covers (onward : heap.Onward ρ roots mid ρ' mid')
    (covers : ρ.Covers roots roots') : ρ'.Covers roots roots' := by
  constructor
  · intro g hg
    obtain ⟨h, hh, hpair⟩ := covers.right g hg
    exact ⟨h, hh, onward.pairs g h hpair (.root hg)⟩
  · intro h hh
    obtain ⟨g, hg, hpair⟩ := covers.left h hh
    exact ⟨g, hg, onward.pairs g h hpair (.root hg)⟩

/-- The roots of a heap that is like another one are live. -/
theorem Matches.live_roots (hmatches : heap.Matches ρ heap') (covers : ρ.Covers roots roots') :
    (∀ g ∈ roots, heap.Live g) ∧ ∀ h ∈ roots', heap'.Live h := by
  constructor
  · intro g hg
    obtain ⟨h, -, hpair⟩ := covers.right g hg
    exact (hmatches.live hpair).1
  · intro h hh
    obtain ⟨g, -, hpair⟩ := covers.left h hh
    exact (hmatches.live hpair).2

/-- Allocating objects that are alike, and whose children the roots reach. -/
theorem Alike.allocate (alike : heap.Alike ρ heap') (covers : ρ.Covers roots roots')
    (same : o.Alike ρ o') (other : ∀ text, o ≠ .string text)
    (children : ∀ c, .object c ∈ o.children → heap.Reaches roots c) :
    Agree (fun h mid h' mid' => ∃ ρ', heap.Onward ρ roots mid ρ' mid' ∧ ρ' h h' ∧
      mid.object? h = some o) (fun _ _ _ _ => False) Lost
      (allocate o roots heap) (allocate o' roots' heap') := by
  obtain ⟨hlive, hlive'⟩ := alike.live_roots covers
  have other' : ∀ text, o' ≠ .string text := by
    rintro text rfl
    cases same with
    | string => exact other text rfl
  have children' : ∀ d, .object d ∈ o'.children → heap'.Reaches roots' d := fun d hd => by
    obtain ⟨v, hv, hvalue⟩ := exists_of_forall₂ same.children hd
    cases hvalue with
    | object hpair => exact alike.reaches_of_pair covers hpair (children _ hv)
  rcases allocate_spec alike.valid.toSound hlive o with
    ⟨h, final, hrun, hallocated⟩ | ⟨final, herror, hover⟩
  · rcases allocate_spec alike.valid'.toSound hlive' o' with
      ⟨h', final', hrun', hallocated'⟩ | ⟨final', herror', hover'⟩
    · rw [hrun, hrun']
      have ⟨mid, hpruned, hplaced⟩ := hallocated
      have ⟨mid', hpruned', hplaced'⟩ := hallocated'
      have hmid := alike.prune hpruned hpruned' (hpruned.closed alike.valid.closed)
        (hpruned'.closed alike.valid'.closed)
      have hpairs : ∀ g h, ρ g h → heap.Reaches roots g → ρ.within mid mid' g h :=
        fun g h => alike.kept covers hpruned hpruned'
      refine .ok ⟨(ρ.within mid mid').with' h h',
        ⟨⟨hmid.extend hplaced.object?_eq hplaced'.object?_eq (same.mono fun c d hcd hc _ =>
          hpairs c d hcd (children c hc)) ?_ ?_, hallocated.valid alike.valid other hlive children,
          hallocated'.valid alike.valid' other' hlive' children'⟩, hallocated.keeps,
          fun g h hpair hreach => .inl (hpairs g h hpair hreach)⟩,
        .inr ⟨rfl, rfl⟩, hallocated.object?_self⟩
      · rintro b ⟨-, ⟨old, hold⟩, -⟩
        simp [hplaced.fresh] at hold
      · rintro a ⟨-, -, ⟨old, hold⟩⟩
        simp [hplaced'.fresh] at hold
    · rw [herror']
      exact .second ⟨rfl, hover'⟩
  · rw [herror]
    exact .first ⟨rfl, hover⟩

/-- Interning puts a string behind its handle, and otherwise only prunes. -/
theorem InternedAs.pruned {start : Heap} {text : String}
    (interned : InternedAs start roots text h heap) (orderly : start.Orderly) :
    ∃ mid, Pruned start roots mid ∧ (mid.Live h → mid.object? h = some (.string text)) ∧
      ∀ a, heap.object? a = if a = h then some (.string text) else mid.object? a := by
  cases interned with
  | found ho =>
      refine ⟨heap, Pruned.charge orderly roots 0, fun _ => ho, fun a => ?_⟩
      split
      · rename_i heq
        rw [heq, ho]
      · rfl
  | made _ hallocated =>
      obtain ⟨mid, hpruned, hplaced⟩ := hallocated
      exact ⟨mid, hpruned, fun ⟨old, hold⟩ => by simp [hplaced.fresh] at hold, hplaced.object?_eq⟩

/-- Interning the same text. -/
theorem Alike.intern (alike : heap.Alike ρ heap') (covers : ρ.Covers roots roots')
    (text : String) :
    Agree (fun h mid h' mid' => ∃ ρ', heap.Onward ρ roots mid ρ' mid' ∧ ρ' h h' ∧
      mid.object? h = some (.string text)) (fun _ _ _ _ => False) Lost
      (intern text roots heap) (intern text roots' heap') := by
  obtain ⟨hlive, hlive'⟩ := alike.live_roots covers
  rcases intern_spec alike.valid hlive text with
    ⟨h, final, hrun, hinterned⟩ | ⟨final, herror, hover⟩
  · rcases intern_spec alike.valid' hlive' text with
      ⟨h', final', hrun', hinterned'⟩ | ⟨final', herror', hover'⟩
    · rw [hrun, hrun']
      obtain ⟨mid, hpruned, hself, hview⟩ := hinterned.pruned alike.valid.toOrderly
      obtain ⟨mid', hpruned', hself', hview'⟩ := hinterned'.pruned alike.valid'.toOrderly
      have hmid := alike.prune hpruned hpruned' (hpruned.closed alike.valid.closed)
        (hpruned'.closed alike.valid'.closed)
      -- a handle that is paired with one of the string is the handle of the string itself
      have hright : ∀ b, ρ.within mid mid' h b → b = h' := fun b hpair => by
        obtain ⟨o', ho', halike⟩ := hmid.object? hpair (hself hpair.2.1)
        cases halike with
        | string =>
            refine (hinterned'.valid alike.valid').distinct b h' text ?_ hinterned'.object?_self
            rw [hview']
            split
            · rfl
            · exact ho'
      have hleft : ∀ a, ρ.within mid mid' a h' → a = h := fun a hpair => by
        obtain ⟨o, o', ho, ho', halike⟩ := hmid.objects a h' hpair
        obtain rfl := Option.some.inj (ho'.symm.trans (hself' hpair.2.2))
        cases halike with
        | string =>
            refine (hinterned.valid alike.valid).distinct a h text ?_ hinterned.object?_self
            rw [hview]
            split
            · rfl
            · exact ho
      exact .ok ⟨(ρ.within mid mid').with' h h',
        ⟨⟨hmid.extend hview hview' (.string text) hright hleft, hinterned.valid alike.valid,
          hinterned'.valid alike.valid'⟩, hinterned.keeps,
          fun g h hpair hreach => .inl (alike.kept covers hpruned hpruned' hpair hreach)⟩,
        .inr ⟨rfl, rfl⟩, hinterned.object?_self⟩
    · rw [herror']
      exact .second ⟨rfl, hover'⟩
  · rw [herror]
    exact .first ⟨rfl, hover⟩

/-- Pruning both heaps. -/
theorem Alike.pruned (alike : heap.Alike ρ heap') (covers : ρ.Covers roots roots')
    (first : Pruned heap roots mid) (second : Pruned heap' roots' mid') (valid : mid.Valid)
    (valid' : mid'.Valid) : heap.Onward ρ roots mid (ρ.within mid mid') mid' :=
  ⟨⟨alike.prune first second valid.closed valid'.closed, valid, valid'⟩,
    fun g o hreach ho => first.kept g o ho hreach,
    fun _ _ hpair hreach => alike.kept covers first second hpair hreach⟩

/-- A collection leaves a valid heap. -/
theorem Collected.valid (collected : Collected heap roots mid) (valid : heap.Valid) : mid.Valid :=
  ⟨collected.sound valid.closed, collected.pruned.interned valid.toInterned⟩

/-- Collecting in the first heap only. -/
theorem Alike.collectFirst (alike : heap.Alike ρ heap') (covers : ρ.Covers roots roots')
    (collected : Collected heap roots mid) :
    heap.Onward ρ roots mid (ρ.within mid heap') heap' :=
  alike.pruned covers collected.pruned (.charge alike.valid'.toOrderly roots' 0)
    (collected.valid alike.valid) alike.valid'

/-- Collecting in the second heap only. -/
theorem Alike.collectSecond (alike : heap.Alike ρ heap') (covers : ρ.Covers roots roots')
    (collected : Collected heap' roots' mid') :
    heap.Onward ρ roots heap (ρ.within heap mid') mid' :=
  alike.pruned covers (.charge alike.valid.toOrderly roots 0) collected.pruned alike.valid
    (collected.valid alike.valid')

/-- Whatever is done to the second heap, as long as it keeps what the roots reach. -/
theorem Alike.keepSecond (alike : heap.Alike ρ heap') (covers : ρ.Covers roots roots')
    (keeps : heap'.Keeps roots' mid') (valid' : mid'.Valid) :
    heap.Onward ρ roots heap (fun g h => ρ g h ∧ heap.Reaches roots g) mid' := by
  refine ⟨⟨⟨⟨fun g h h' hh hh' => alike.oneToOne.right g h h' hh.1 hh'.1,
    fun g g' h hg hg' => alike.oneToOne.left g g' h hg.1 hg'.1⟩, fun g h hpair => ?_⟩,
    alike.valid, valid'⟩, .refl _ _, fun g h hpair hreach => ⟨hpair, hreach⟩⟩
  obtain ⟨hpair, hreach⟩ := hpair
  obtain ⟨o, o', ho, ho', halike⟩ := alike.objects g h hpair
  have hreach' := alike.reaches_of_pair covers hpair hreach
  exact ⟨o, o', ho, keeps h o' hreach' ho',
    halike.mono fun c d hcd hc _ => ⟨hcd, hreach.child ho hc⟩⟩

/-- Replacing paired objects that are no strings by objects that are alike. -/
theorem Alike.replace (alike : heap.Alike ρ heap') (pair : ρ h h') (same : o.Alike ρ o')
    {old : Object} (hold : heap.object? h = some old) (before : ∀ text, old ≠ .string text)
    (after : ∀ text, o ≠ .string text) (children : ∀ c, .object c ∈ o.children → heap.Live c) :
    (heap.replace h o).Alike ρ (heap'.replace h' o') := by
  obtain ⟨old', hold', halike⟩ := alike.object? pair hold
  have hcopy := alike.extend (fun a => object?_replace ⟨old, hold⟩)
    (fun b => object?_replace ⟨old', hold'⟩) same
    (fun b hb => alike.oneToOne.right _ _ _ hb pair) fun a ha => alike.oneToOne.left _ _ _ ha pair
  have hwith : ρ.with' h h' = ρ := by
    funext a b
    refine propext ⟨?_, .inl⟩
    rintro (hpair | ⟨rfl, rfl⟩)
    · exact hpair
    · exact pair
  rw [hwith] at hcopy
  refine ⟨hcopy, alike.valid.replace hold before after children,
    alike.valid'.replace hold' ?_ ?_ fun d hd => ?_⟩
  · rintro text rfl
    cases halike with
    | string => exact before text rfl
  · rintro text rfl
    cases same with
    | string => exact after text rfl
  · obtain ⟨v, hv, hvalue⟩ := exists_of_forall₂ same.children hd
    cases hvalue with
    | object hpair => exact (alike.live hpair).2

end Heap

end Lox
