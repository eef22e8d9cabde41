import Mathlib.Logic.Relation
import Lox.Proofs.Heap.Handles
import Lox.Proofs.Heap.History

/-!
# Interned strings

If all strings of a heap have been interned, then interning is *canonical*: the table holds every
live string exactly once, and two live strings with the same text are the same string. The table
is weak, collections prune it in the middle of allocations, and different texts may share a
fingerprint.

All this is about handles, so it holds as long as every slot has a handle of its own. It is proved
of handles without a bound first, and then of histories on as many handles as there are. When
objects outnumber handles, the next text gets the handle of another object and is not found again.

## Main definitions

* `Canonical` — what canonical interning means.

## Main results

* `interning_canonical` — interning is canonical after every history with handles enough.
* `interning_clashes` — it is not when there is one slot more.
-/

namespace Lox.Heap

variable {heap heap' : Heap} {h g : Handle} {roots : List Handle} {o : Object}
  {admits : Object → Prop}

/-! ### Interned strings -/

/-- The intern table lists exactly the live strings. -/
theorem Interned.mem_interned_iff (interned : heap.Interned) :
    h ∈ heap.interned ↔ ∃ text, heap.object? h = some (.string text) := by
  simp only [Heap.interned, List.mem_flatMap, Prod.exists,
    Std.TreeMap.mem_toList_iff_getElem?_eq_some]
  constructor
  · rintro ⟨hash, bucket, hbucket, hmem⟩
    obtain ⟨text, htext, -⟩ := (interned.entries hash bucket hbucket).2.2 h hmem
    exact ⟨text, htext⟩
  · rintro ⟨text, htext⟩
    obtain ⟨bucket, hbucket, hmem⟩ := interned.listed h text htext
    exact ⟨_, bucket, hbucket, hmem⟩

/-- The intern table lists no string twice: different buckets hold texts with different
fingerprints. -/
theorem Interned.nodup_interned (interned : heap.Interned) : heap.interned.Nodup := by
  rw [Heap.interned, List.nodup_flatMap]
  constructor
  · rintro ⟨hash, bucket⟩ hmem
    exact (interned.entries hash bucket (Std.TreeMap.mem_toList_iff_getElem?_eq_some.mp hmem)).2.1
  · refine heap.strings.distinct_keys_toList.imp_of_mem ?_
    rintro ⟨hash, bucket⟩ ⟨hash', bucket'⟩ hmem hmem' hne h hh hh'
    rw [Std.TreeMap.mem_toList_iff_getElem?_eq_some] at hmem hmem'
    obtain ⟨text, htext, rfl⟩ := (interned.entries hash bucket hmem).2.2 h hh
    obtain ⟨text', htext', rfl⟩ := (interned.entries hash' bucket' hmem').2.2 h hh'
    rw [htext] at htext'
    cases htext'
    exact hne Std.ReflCmp.compare_self

/-- Interning is **canonical** in a heap: strings are told apart by their texts alone. -/
structure Canonical (heap : Heap) : Prop where
  /-- Every live string is in the table exactly once, under the fingerprint of its text. -/
  listed : ∀ h text, heap.object? h = some (.string text) → heap.interned.count h = 1 ∧
    ∃ bucket, heap.strings[fingerprint text]? = some bucket ∧ h ∈ bucket
  /-- Every entry of the table is a live string, and no bucket is empty. -/
  entries : ∀ (hash : UInt64) bucket, heap.strings[hash]? = some bucket → bucket ≠ [] ∧
    ∀ h ∈ bucket, ∃ text, heap.object? h = some (.string text)
  /-- No two live strings have the same text. -/
  distinct : ∀ g h text, heap.object? g = some (.string text) →
    heap.object? h = some (.string text) → g = h
  /-- Live strings are the same value exactly when they have the same text. -/
  same_iff : ∀ g h s t, heap.object? g = some (.string s) → heap.object? h = some (.string t) →
    ((Value.object g).same (.object h) = true ↔ s = t)
  /-- A text is found exactly when a live string has it. -/
  found_iff : ∀ text h, heap.findInterned? text (fingerprint text) = some h ↔
    heap.object? h = some (.string text)

/-- Interning is canonical after every history on handles without a bound. -/
theorem Arises.canonical (arises : heap.Arises fun o => o.kind ≠ .string) :
    heap.Canonical := by
  have interned := arises.interned
  refine ⟨fun h text htext => ⟨?_, interned.listed h text htext⟩, fun hash bucket hbucket => ?_,
    interned.distinct, fun g h s t hs ht => ?_,
    fun text h => interned.findInterned?_eq_some_iff⟩
  · exact List.count_eq_one_of_mem interned.nodup_interned
      (interned.mem_interned_iff.mpr ⟨text, htext⟩)
  · obtain ⟨hne, -, hentries⟩ := interned.entries hash bucket hbucket
    refine ⟨hne, fun h hh => ?_⟩
    obtain ⟨text, htext, -⟩ := hentries h hh
    exact ⟨text, htext⟩
  · rw [Value.same, decide_eq_true_eq]
    constructor
    · rintro rfl
      simpa [hs] using ht
    · rintro rfl
      exact interned.distinct g h s hs ht

/-- The bound on handles plays no part in what interning is asked. -/
theorem Canonical.of_unlimited (canonical : heap.unlimited.Canonical) : heap.Canonical :=
  ⟨canonical.listed, canonical.entries, canonical.distinct, canonical.same_iff,
    canonical.found_iff⟩

/-- Every operation is one without a bound on handles, as long as there is a handle for every
slot. -/
theorem Step.unlimited (step : Step admits heap heap') :
    heap'.handles = heap.handles ∧ heap.slots.size ≤ heap'.slots.size ∧
      (heap'.slots.size ≤ heap.handles → Step admits heap.unlimited heap'.unlimited) := by
  cases step with
  | allocate hadmits run =>
      exact ((allocate_suits _ _ heap).of_ok run).imp_right (.imp_right fun h room =>
        .allocate hadmits (h room))
  | allocateClosure run =>
      exact ((allocateClosure_suits _ _ heap).of_ok run).imp_right (.imp_right fun h room =>
        .allocateClosure (h room))
  | intern run =>
      exact ((intern_suits _ _ heap).of_ok run).imp_right (.imp_right fun h room =>
        .intern (h room))
  | concat run =>
      exact ((concat_suits _ _ _ heap).of_ok run).imp_right (.imp_right fun h room =>
        .concat (h room))
  | edit hold hmutable hkind =>
      exact ⟨rfl, Nat.le_of_eq Array.size_modify.symm, fun _ => .edit hold hmutable hkind⟩
  | mark run =>
      exact ((mark_still _ heap).toSuits.of_ok run).imp_right (.imp_right fun h room =>
        .mark (h room))
  | collect run =>
      exact ((collect_still _ heap).toSuits.of_ok run).imp_right (.imp_right fun h room =>
        .collect (h room))

/-- Every history is one without a bound on handles, as long as there is a handle for every
slot. -/
theorem arises_unlimited {policy : Policy} {handles : Nat}
    (history : Relation.ReflTransGen (Step admits) (empty policy handles) heap) :
    heap.handles = handles ∧ (heap.slots.size ≤ handles → Arises admits heap.unlimited) := by
  induction history with
  | refl => exact ⟨rfl, fun _ => .empty policy⟩
  | tail _ step ih =>
      obtain ⟨hhandles, hgrows, hstep⟩ := step.unlimited
      rw [ih.1] at hhandles hstep
      exact ⟨hhandles, fun room => (ih.2 (hgrows.trans room)).step (hstep room)⟩

/-- Interning is canonical after every history in which all strings are interned, as long as there
is a handle for every slot. Nothing is assumed of fingerprints, so different texts may share one. -/
theorem interning_canonical {policy : Policy}
    (history : Relation.ReflTransGen (Step fun o => o.kind ≠ .string)
      (empty policy Handle.count) heap)
    (room : heap.slots.size ≤ Handle.count) : heap.Canonical :=
  ((arises_unlimited history).2 room).canonical.of_unlimited

/-- Two strings are joined and then freed by a collection, and one of them is interned anew. -/
def joined : HeapM Unit := do
  let left ← intern "a" []
  let right ← intern "b" [left]
  let both ← concat left right [left, right]
  collect [both]
  let _ ← intern "a" [both]

/-- Interning is canonical where the joined string and one of its parts are live. -/
theorem interning_canonical_joined : ∃ heap, joined (empty {} Handle.count) = .ok () heap ∧
    Relation.ReflTransGen (Step fun o => o.kind ≠ .string) (empty {} Handle.count) heap ∧
      heap.slots.size ≤ Handle.count ∧ heap.holdsText "a" ⟨1⟩ = true ∧
      heap.holdsText "ab" ⟨2⟩ = true ∧ heap.Canonical := by
  have figures : (match joined (empty {} Handle.count) with
      | .ok () heap => heap.holdsText "a" ⟨1⟩ && heap.holdsText "ab" ⟨2⟩ &&
          decide (heap.slots.size ≤ Handle.count)
      | .error _ _ => false) = true := by
    decide +kernel
  split at figures
  · rename_i heap run
    obtain ⟨left, _, hleft, rest⟩ := bind_eq_ok_iff.mp run
    obtain ⟨right, _, hright, rest⟩ := bind_eq_ok_iff.mp rest
    obtain ⟨both, _, hboth, rest⟩ := bind_eq_ok_iff.mp rest
    obtain ⟨_, _, hpruned, rest⟩ := bind_eq_ok_iff.mp rest
    obtain ⟨_, _, hagain, hend⟩ := bind_eq_ok_iff.mp rest
    cases hend
    have history : Relation.ReflTransGen (Step fun o => o.kind ≠ .string)
        (empty {} Handle.count) heap :=
      ((((Relation.ReflTransGen.single (.intern hleft)).tail (.intern hright)).tail
        (.concat hboth)).tail (.collect hpruned)).tail (.intern hagain)
    simp only [Bool.and_eq_true, decide_eq_true_eq] at figures
    obtain ⟨⟨left, both⟩, room⟩ := figures
    exact ⟨heap, run, history, room, left, both, interning_canonical history room⟩
  · cases figures

/-! ### More slots than handles -/

/-- A new string behind all objects, under the given handle. -/
def lettered (heap : Heap) (text : String) (h : Handle) : Heap :=
  enlist (fingerprint text) h { heap with
    slots := heap.slots.push { object := some (.string text), size := (Object.string text).size }
    bytes := heap.bytes + (Object.string text).size }

/-- The new string is in the slot behind the others. -/
theorem object?_lettered (heap : Heap) (text : String) (h g : Handle) :
    (heap.lettered text h).object? g =
      if g.index = heap.slots.size then some (.string text) else heap.object? g := by
  by_cases hlast : g.index = heap.slots.size <;>
    simp [object?, lettered, enlist, Array.getElem?_push, hlast]

/-- Interning a new text in an arena without free slots, when no collection is due. -/
theorem intern_of_full {text : String} (free : heap.free = []) (calm : heap.policy.stress = false)
    (under : heap.bytes + (Object.string text).size ≤ heap.threshold)
    (new : heap.findInterned? text (fingerprint text) = none)
    (last : heap.handle heap.slots.size = h) :
    intern text roots heap = .ok h (heap.lettered text h) := by
  subst last
  unfold intern
  rw [bind_of_ok (get_apply heap), new]
  exact (bind_of_ok (allocate_of_full _ _ free calm under)).trans rfl

/-- Cells are no strings. -/
theorem cells_history {n : Nat} (run : cells n heap = .ok () heap') :
    Relation.ReflTransGen (Step fun o => o.kind ≠ .string) heap heap' := by
  induction n generalizing heap with
  | zero =>
      cases run
      exact .refl
  | succ n ih =>
      obtain ⟨h, mid, hfirst, hrest⟩ := bind_eq_ok_iff.mp run
      exact (ih hrest).head (.allocate (by decide) hfirst)

/-- Interns two texts, with a number of cells in between. -/
def crowd (n : Nat) : HeapM Handle := do
  let _ ← intern "a" []
  cells n
  intern "b" []

/-- When there is one handle more than cells, the second text gets the handle of the first. -/
theorem crowd_clashes (n : Nat) : ∃ heap,
    crowd n (empty { threshold := (n + 3) * 100 } (n + 1)) = .ok ⟨0⟩ heap ∧
      Relation.ReflTransGen (Step fun o => o.kind ≠ .string)
        (empty { threshold := (n + 3) * 100 } (n + 1)) heap ∧
      heap.holdsText "a" ⟨0⟩ = true ∧ heap.holdsText "b" ⟨n + 1⟩ = true ∧
      heap.findInterned? "b" (fingerprint "b") = none ∧ ¬ heap.Canonical := by
  have hprint : fingerprint "a" ≠ fingerprint "b" := by decide
  generalize hstart : empty { threshold := (n + 3) * 100 } (n + 1) = start
  have hleft : intern "a" [] start = .ok ⟨0⟩ (start.lettered "a" ⟨0⟩) := by
    subst hstart
    exact intern_of_full rfl rfl (show 0 + 97 ≤ (n + 3) * 100 by omega) rfl
      (congrArg Handle.mk (Nat.zero_mod _))
  obtain ⟨slots, hcells, hsize, hkept⟩ := cells_of_full (start.lettered "a" ⟨0⟩) n
    (by subst hstart; rfl) (by subst hstart; rfl)
    (by subst hstart; exact (show 97 + n * 96 ≤ (n + 3) * 100 by omega))
  generalize hmid : { start.lettered "a" ⟨0⟩ with
    slots, bytes := (start.lettered "a" ⟨0⟩).bytes + n * Object.header : Heap } = mid at hcells
  have hlast : mid.slots.size = n + 1 := by
    subst hmid hstart
    exact hsize.trans (Nat.add_comm 1 n)
  have hnew : mid.strings[fingerprint "b"]? = none := by
    subst hmid hstart
    simp [lettered, enlist, empty, Std.TreeMap.getElem?_alter, hprint]
  have hright : intern "b" [] mid = .ok ⟨0⟩ (mid.lettered "b" ⟨0⟩) := by
    refine intern_of_full (by subst hmid hstart; rfl) (by subst hmid hstart; rfl)
      (by subst hmid hstart; exact (show 97 + n * 96 + 97 ≤ (n + 3) * 100 by omega))
      (by simp only [findInterned?, hnew]) ?_
    rw [hlast]
    subst hmid hstart
    exact congrArg Handle.mk (Nat.mod_self _)
  have hfirst : (mid.lettered "b" ⟨0⟩).object? ⟨0⟩ = some (.string "a") := by
    have hzero : mid.object? ⟨0⟩ = (start.lettered "a" ⟨0⟩).object? ⟨0⟩ := by
      subst hmid hstart
      simp only [object?, hkept 0 Nat.zero_lt_one]
    rw [object?_lettered, if_neg (by simp [hlast]), hzero, object?_lettered, if_pos]
    subst hstart
    rfl
  have hsecond : (mid.lettered "b" ⟨0⟩).object? ⟨n + 1⟩ = some (.string "b") := by
    rw [object?_lettered, if_pos hlast.symm]
  have hbucket : (mid.lettered "b" ⟨0⟩).strings[fingerprint "b"]? = some [⟨0⟩] := by
    simp [lettered, enlist, hnew]
  refine ⟨_, (bind_of_ok hleft).trans ((bind_of_ok hcells).trans hright), ?_, ?_, ?_, ?_, ?_⟩
  · exact ((Relation.ReflTransGen.single (.intern hleft)).trans (cells_history hcells)).tail
      (.intern hright)
  · simp [holdsText, hfirst]
  · simp [holdsText, hsecond]
  · simp [findInterned?, hbucket, holdsText, hfirst]
  · intro canonical
    obtain ⟨bucket, hb, hmem⟩ := (canonical.listed _ _ hsecond).2
    rw [hbucket] at hb
    cases hb
    simp at hmem

/-- When a string and cells have taken as many slots as there are handles, the text that is interned
next gets the handle of the string and is not found again: interning is not canonical then. -/
theorem interning_clashes : ∃ policy heap,
    crowd (Handle.count - 1) (empty policy Handle.count) = .ok ⟨0⟩ heap ∧
      Relation.ReflTransGen (Step fun o => o.kind ≠ .string) (empty policy Handle.count) heap ∧
      heap.holdsText "a" ⟨0⟩ = true ∧ heap.holdsText "b" ⟨Handle.count⟩ = true ∧
      heap.findInterned? "b" (fingerprint "b") = none ∧ ¬ heap.Canonical :=
  ⟨_, crowd_clashes (Handle.count - 1)⟩

end Lox.Heap
