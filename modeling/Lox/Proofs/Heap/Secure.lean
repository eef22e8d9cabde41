import Lox.Machine.Basic
import Lox.Proofs.Code.Lines
import Lox.Proofs.Code.Typing

/-!
# Objects that a machine can rely on

A machine looks at no object before it uses it: a closure must have a function and all the
cells that its code asks for, a function must be typed, and an open cell must be known to the
machine. For its traces it relies on functions to have one line for each instruction. This module
says what it means that all objects that given roots reach are fine in this sense, and that the
operations of the heap keep it so.

## Main definitions

* `Heap.Fine` — an object that can be relied on.
* `Heap.Secure` — all that the roots reach can be relied on.
* `Heap.Endures` — code and closures are still there in a later heap.

## Main results

* `Secure.keeps`, `Secure.add` — allocating.
* `Secure.replace` — changing a cell or a closure.
-/

namespace Lox

/-- A function of the host that gives back no object but one of its arguments. -/
def HostFunction.Conforms (run : HostFunction) : Prop :=
  ∀ (reading : Float) (arguments : Array Value) (h : Handle),
    run reading arguments = .object h → .object h ∈ arguments.toList

namespace Heap

variable {heap heap' : Heap} {entries entries' : List (Nat × Handle)} {building : Option Handle}
  {roots roots' : List Handle} {g h : Handle} {o old : Object} {v : Value}

/-! ### Reachability -/

/-- What is reached from reached roots is reached. -/
theorem Reaches.trans (reaches : heap.Reaches roots' h)
    (subset : ∀ g ∈ roots', heap.Reaches roots g) :
    heap.Reaches roots h :=
  reaches.induct subset fun _ _ hg ho _ hc => hg.child ho hc

/-- A root whose children are reached from the other roots reaches nothing but itself and what
they reach. -/
theorem reaches_cons (ho : heap.object? h = some o)
    (children : ∀ c, .object c ∈ o.children → heap.Reaches roots c)
    (reaches : heap.Reaches (h :: roots) g) : g = h ∨ heap.Reaches roots g := by
  refine Reaches.induct (P := fun g => g = h ∨ heap.Reaches roots g) (fun g hg => ?_)
    (fun g found hg hfound c hc => ?_) reaches
  · exact (List.mem_cons.mp hg).imp_right .root
  · rcases hg with rfl | hg
    · obtain rfl := Option.some.inj (hfound.symm.trans ho)
      exact .inr (children c hc)
    · exact .inr (hg.child hfound hc)

/-- In a heap that keeps what live roots reach, they reach nothing else. -/
theorem Keeps.reaches_back (keeps : heap.Keeps roots heap') (closed : heap.Closed)
    (live : ∀ g ∈ roots, heap.Live g) (reaches : heap'.Reaches roots h) : heap.Reaches roots h :=
  reaches.induct (fun _ hg => .root hg) fun _ _ hg ho _ hc =>
    hg.child (keeps.earlier closed live hg ho) hc

/-! ### Objects -/

/-- An object behind a handle that a machine can rely on. One closure may lack cells: it is
being built. -/
inductive Fine (heap : Heap) (entries : List (Nat × Handle)) (building : Option Handle)
    (h : Handle) : Object → Prop
  | string (text : String) : Fine heap entries building h (.string text)
  | function {f : Function} {k : Constant} : heap.Holds (.object h) k → k.Typed →
      k.Lined → Fine heap entries building h (.function f)
  | native {n : Native} : HostFunction.Conforms n.run → Fine heap entries building h (.native n)
  | closure {c : Closure} {f : Function} : heap.object? c.function = some (.function f) →
      (∀ g ∈ c.cells.toList, ∃ state, heap.object? g = some (.cell state)) →
      (some h ≠ building → c.cells.size = f.upvalueCount) →
        Fine heap entries building h (.closure c)
  | opened {slot : Nat} : (slot, h) ∈ entries → Fine heap entries building h (.cell (.opened slot))
  | closed (v : Value) : Fine heap entries building h (.cell (.closed v))

/-- A valid heap is **secure** when all that the roots reach can be relied on, and the cells
that are known to be open are open. -/
structure Secure (heap : Heap) (entries : List (Nat × Handle)) (building : Option Handle)
    (roots : List Handle) : Prop where
  valid : heap.Valid
  live : ∀ h ∈ roots, heap.Live h
  fine : ∀ h o, heap.Reaches roots h → heap.object? h = some o → heap.Fine entries building h o
  opened : ∀ e ∈ entries, heap.object? e.2 = some (.cell (.opened e.1))
  nodup : entries.Nodup

/-- Everything that is reached is live. -/
theorem Secure.live_of_reaches (secure : heap.Secure entries building roots)
    (reaches : heap.Reaches roots h) : heap.Live h :=
  secure.valid.closed.live_of_reaches secure.live reaches

/-- Other roots may be taken if they are reached. -/
theorem Secure.of_reaches (secure : heap.Secure entries building roots)
    (reached : ∀ h ∈ roots', heap.Reaches roots h) : heap.Secure entries building roots' :=
  ⟨secure.valid, fun h hh => secure.live_of_reaches (reached h hh),
    fun h o hreach ho => secure.fine h o (hreach.trans reached) ho, secure.opened, secure.nodup⟩

/-- An object that can be relied on if some cells are open can be relied on if more are. -/
theorem Fine.mono (fine : heap.Fine entries building h o)
    (subset : ∀ slot, (slot, h) ∈ entries → (slot, h) ∈ entries') :
    heap.Fine entries' building h o := by
  cases fine with
  | string text => exact .string text
  | function hholds htyped hlined => exact .function hholds htyped hlined
  | native hconforms => exact .native hconforms
  | closure hfunction hcells hcount => exact .closure hfunction hcells hcount
  | opened hmem => exact .opened (subset _ hmem)
  | closed v => exact .closed v

/-- The order in which open cells are known does not matter. -/
theorem Secure.perm (secure : heap.Secure entries building roots) (perm : entries.Perm entries') :
    heap.Secure entries' building roots :=
  ⟨secure.valid, secure.live, fun h o hreach ho =>
    (secure.fine h o hreach ho).mono fun _ hmem => perm.mem_iff.mp hmem,
    fun e he => secure.opened e (perm.mem_iff.mpr he), perm.nodup_iff.mp secure.nodup⟩

/-! ### Allocating -/

/-- An object that can be relied on can be relied on in a heap that keeps all that the roots
reach. -/
theorem Fine.keeps (fine : heap.Fine entries building h o) (ho : heap.object? h = some o)
    (keeps : heap.Keeps roots heap') (reaches : heap.Reaches roots h) :
    heap'.Fine entries building h o := by
  cases fine with
  | string text => exact .string text
  | function hholds htyped hlined =>
      exact .function (hholds.later keeps fun g hg => by cases hg; exact reaches) htyped hlined
  | native hconforms => exact .native hconforms
  | closure hfunction hcells hcount =>
      refine .closure (keeps _ _ (reaches.child ho (by simp [Object.children])) hfunction)
        (fun g hg => ?_) hcount
      obtain ⟨state, hstate⟩ := hcells g hg
      exact ⟨state, keeps _ _ (reaches.child ho
        (by simp [Object.children, Array.mem_toList_iff.mp hg])) hstate⟩
  | opened hmem => exact .opened hmem
  | closed v => exact .closed v

/-- A heap that keeps all that the roots reach stays secure. -/
theorem Secure.keeps (secure : heap.Secure entries building roots)
    (keeps : heap.Keeps roots heap') (valid : heap'.Valid)
    (known : ∀ e ∈ entries, heap.Reaches roots e.2) : heap'.Secure entries building roots := by
  have back : ∀ {h}, heap'.Reaches roots h → heap.Reaches roots h :=
    fun hreach => keeps.reaches_back secure.valid.closed secure.live hreach
  refine ⟨valid, fun h hh => keeps.live (.root hh) (secure.live h hh), fun h o hreach ho => ?_,
    fun e he => keeps _ _ (known e he) (secure.opened e he), secure.nodup⟩
  have ho' := keeps.earlier secure.valid.closed secure.live (back hreach) ho
  exact (secure.fine h o (back hreach) ho').keeps ho' keeps (back hreach)

/-- A new object may become a root if it can be relied on and its children are reached. -/
theorem Secure.add (secure : heap.Secure entries building roots) (ho : heap.object? h = some o)
    (children : ∀ c, .object c ∈ o.children → heap.Reaches roots c)
    (fine : heap.Fine entries building h o) : heap.Secure entries building (h :: roots) := by
  refine ⟨secure.valid, fun g hg => ?_, fun g found hreach hfound => ?_, secure.opened,
    secure.nodup⟩
  · rcases List.mem_cons.mp hg with rfl | hg
    · exact ⟨o, ho⟩
    · exact secure.live g hg
  · rcases reaches_cons ho children hreach with rfl | hreach
    · obtain rfl := Option.some.inj (hfound.symm.trans ho)
      exact fine
    · exact secure.fine g found hreach hfound

/-! ### Changing objects -/

/-- Changing a cell or a closure does not change code. -/
theorem shared_replace (hold : heap.object? h = some old)
    (mutable : old.kind = .cell ∨ old.kind = .closure) :
    heap.Shared (heap.replace h o) fun _ => True := by
  intro g found _ hfound hkind
  refine ⟨?_, fun _ _ => trivial⟩
  rw [object?_replace ⟨old, hold⟩, if_neg, hfound]
  rintro rfl
  obtain rfl := Option.some.inj (hold.symm.trans hfound)
  rcases hkind with hkind | hkind <;> rcases mutable with hmutable | hmutable <;>
    rw [hkind] at hmutable <;> cases hmutable

/-- An object can still be relied on after another cell or closure has been changed, where open
cells that are no longer known are not in use. -/
theorem Fine.replace (fine : heap.Fine entries building g o) {new : Object}
    (hold : heap.object? h = some old) (mutable : old.kind = .cell ∨ old.kind = .closure)
    (kind : new.kind = old.kind)
    (known : ∀ slot, (slot, g) ∈ entries → (slot, g) ∈ entries') :
    (heap.replace h new).Fine entries' building g o := by
  have shared := shared_replace (o := new) hold mutable
  cases fine with
  | string text => exact .string text
  | function hholds htyped hlined =>
      exact .function (hholds.transfer shared fun _ _ => trivial) htyped hlined
  | native hconforms => exact .native hconforms
  | closure hfunction hcells hcount =>
      refine .closure (shared _ _ trivial hfunction (.inr rfl)).1 (fun c hc => ?_) hcount
      obtain ⟨state, hstate⟩ := hcells c hc
      rw [object?_replace ⟨old, hold⟩]
      split
      · rename_i heq
        subst heq
        obtain rfl := Option.some.inj (hold.symm.trans hstate)
        cases new <;> cases kind
        exact ⟨_, rfl⟩
      · exact ⟨state, hstate⟩
  | opened hmem => exact .opened (known _ hmem)
  | closed v => exact .closed v

/-- Changing a cell or a closure into one of the same kind keeps a heap secure, if the children
of the new one are reached. A cell that is closed is no longer known to be open. -/
theorem Secure.replace (secure : heap.Secure entries building roots)
    (hold : heap.object? h = some old) (mutable : old.kind = .cell ∨ old.kind = .closure)
    (kind : o.kind = old.kind) (children : ∀ c, .object c ∈ o.children → heap.Reaches roots c)
    (fine : heap.Fine entries' building h o) (fewer : entries' <:+ entries)
    (others : ∀ slot g, g ≠ h → (slot, g) ∈ entries → (slot, g) ∈ entries')
    (opened : ∀ slot, (slot, h) ∈ entries' → o = .cell (.opened slot)) :
    (heap.replace h o).Secure entries' building roots := by
  have view : ∀ g, (heap.replace h o).object? g = if g = h then some o else heap.object? g :=
    fun g => object?_replace ⟨old, hold⟩
  have back : ∀ {g}, (heap.replace h o).Reaches roots g → heap.Reaches roots g := fun hreach =>
    hreach.induct (fun _ hg => .root hg) fun g found hg hfound c hc => by
      rw [view] at hfound
      split at hfound
      · obtain rfl := Option.some.inj hfound
        exact children c hc
      · exact hg.child hfound hc
  have nostring : ∀ {p : Object}, p.kind = .cell ∨ p.kind = .closure →
    ∀ text, p ≠ .string text := by
    rintro p hp text rfl
    rcases hp with hp | hp <;> cases hp
  refine ⟨secure.valid.replace hold (nostring mutable) (nostring (kind ▸ mutable))
    fun c hc => secure.live_of_reaches (children c hc), fun g hg => ?_,
    fun g found hreach hfound => ?_, fun e he => ?_, secure.nodup.sublist fewer.sublist⟩
  · obtain ⟨found, hfound⟩ := secure.live g hg
    rw [Live, view]
    split
    · exact ⟨o, rfl⟩
    · exact ⟨found, hfound⟩
  · rw [view] at hfound
    split at hfound
    · rename_i heq
      obtain rfl := Option.some.inj hfound
      exact heq ▸ fine.replace hold mutable kind fun _ => id
    · rename_i hne
      exact (secure.fine g found (back hreach) hfound).replace hold mutable kind
        fun slot hmem => others slot g hne hmem
  · obtain ⟨slot, g⟩ := e
    rw [view]
    split
    · rename_i heq
      exact congrArg some (opened slot (heq ▸ he))
    · exact secure.opened _ (fewer.mem he)

/-! ### Later heaps -/

/-- A later heap in which the code and the closures of a set are still there. A closure may have
captured more. -/
structure Endures (heap : Heap) (S : Handle → Prop) (heap' : Heap) : Prop where
  shared : heap.Shared heap' S
  closures : ∀ h c, S h → heap.object? h = some (.closure c) →
    S c.function ∧ ∃ c', heap'.object? h = some (.closure c') ∧ c'.function = c.function

/-- Everything endures in the heap itself. -/
theorem Endures.refl (heap : Heap) : heap.Endures (fun _ => True) heap :=
  ⟨fun _ _ _ ho _ => ⟨ho, fun _ _ => trivial⟩, fun _ c _ hc => ⟨trivial, c, hc, rfl⟩⟩

/-- What endures twice endures. -/
theorem Endures.trans {S : Handle → Prop} {last : Heap} (first : heap.Endures S heap')
    (second : heap'.Endures S last) : heap.Endures S last := by
  refine ⟨fun g o hg ho hkind => ?_, fun g c hg hc => ?_⟩
  · obtain ⟨ho', hchildren⟩ := first.shared g o hg ho hkind
    exact ⟨(second.shared g o hg ho' hkind).1, hchildren⟩
  · obtain ⟨hfunction, c', hc', heq⟩ := first.closures g c hg hc
    obtain ⟨-, c'', hc'', heq'⟩ := second.closures g c' hg hc'
    exact ⟨hfunction, c'', hc'', heq'.trans heq⟩

/-- What is kept endures. -/
theorem Keeps.endures (keeps : heap.Keeps roots heap') :
    heap.Endures (heap.Reaches roots) heap' :=
  ⟨fun _ _ hg ho _ => ⟨keeps _ _ hg ho, fun _ hc => hg.child ho hc⟩,
    fun _ c hg hc => ⟨hg.child hc (by simp [Object.children]), c, keeps _ _ hg hc, rfl⟩⟩

/-- Everything endures a change of a cell, and of a closure that keeps its function. -/
theorem endures_replace (hold : heap.object? h = some old)
    (mutable : old.kind = .cell ∨ old.kind = .closure)
    (function : ∀ c, old = .closure c → ∃ c', o = .closure c' ∧ c'.function = c.function) :
    heap.Endures (fun _ => True) (heap.replace h o) := by
  refine ⟨shared_replace hold mutable, fun g c _ hc => ⟨trivial, ?_⟩⟩
  rw [object?_replace ⟨old, hold⟩]
  split
  · rename_i heq
    subst heq
    obtain ⟨c', rfl, hfunction⟩ := function c (Option.some.inj (hold.symm.trans hc))
    exact ⟨c', rfl, hfunction⟩
  · exact ⟨c, hc, rfl⟩

end Heap

end Lox
