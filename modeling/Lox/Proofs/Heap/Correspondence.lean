import Lox.Proofs.Heap.Renaming

/-!
# Heaps that correspond

The compiler asks little of its heap. It interns texts and it allocates functions whose names
and constants it holds; it never compares two handles, and it never looks at an object. So two
compilers stay in step on heaps of many kinds, as long as these two operations treat the heaps
alike. A *correspondence* is a way to tell that two heaps are alike which the two operations
respect.

Two correspondences are of use. The first is that of valid heaps which are alike under a
renaming, and it also tells what became of the pairs that the caller holds. The second asks
nothing of the heaps but that they are *fit*: what the caller holds reaches live objects only,
and no marked object leads out of range. Nothing is known of other objects, so their handles may
dangle, and strings with the same text may lie about. Two handles are paired there if they resolve
to the same constant.

## Main definitions

* `Correspondence` — what the compiler asks of two heaps.
* `Heap.Yields` — what allocating and interning have in common.
* `Heap.Fit` — a heap that a compiler can work on.

## Main results

* `Correspondence.ofAlike` — heaps that are alike correspond.
* `Correspondence.ofFit` — so do heaps that are fit.
-/

namespace Lox

/-! ### Correspondences -/

/-- A value of the kinds that the compiler puts among the constants. -/
def Value.Pooled : Value → Prop
  | .number _ | .object _ => True
  | .nil | .bool _ => False

/-- Pairs of handles of two heaps, and which of them are pairs of strings. -/
structure Pairing where
  /-- All pairs. -/
  all : Renaming
  /-- The pairs of strings. -/
  texts : Renaming
  all_of_texts : ∀ g h, texts g h → all g h

/-- The pairs of some handles are pairs of another pairing, too. -/
structure Pairing.Stays (π : Pairing) (own own' : List Handle) (π' : Pairing) : Prop where
  all : ∀ g h, g ∈ own → h ∈ own' → π.all g h → π'.all g h
  texts : ∀ g h, g ∈ own → h ∈ own' → π.texts g h → π'.texts g h

/-- A way in which two heaps may correspond whose callers hold given handles. Operations that
run with some handles of their own keep the pairs of these. -/
structure Correspondence (held held' : List Handle) where
  /-- The heaps correspond, and paired handles stand for the same. -/
  holds : Heap → Pairing → Heap → Prop
  intern : ∀ {heap heap' : Heap} {π : Pairing} {own own' : List Handle} (text : String),
    holds heap π heap' → π.all.Covers own own' →
      Agree (fun h mid h' mid' => ∃ π', holds mid π' mid' ∧ π'.texts h h' ∧ π.Stays own own' π')
        (fun _ _ _ _ => False) Heap.Lost
        (Heap.intern text (held ++ own) heap) (Heap.intern text (held' ++ own') heap')
  allocate : ∀ {heap heap' : Heap} {π : Pairing} {own own' : List Handle} {f f' : Function},
    holds heap π heap' → π.all.Covers own own' → f.Alike π.all f' →
      Option.Rel π.texts f.name f'.name → (∀ v ∈ f.chunk.constants.toList, v.Pooled) →
      (∀ c, .object c ∈ (Object.function f).children → c ∈ own) →
      (∀ c, .object c ∈ (Object.function f').children → c ∈ own') →
      Agree (fun h mid h' mid' => ∃ π', holds mid π' mid' ∧ π'.all h h' ∧ π.Stays own own' π')
        (fun _ _ _ _ => False) Heap.Lost
        (Heap.allocate (.function f) (held ++ own) heap)
        (Heap.allocate (.function f') (held' ++ own') heap')

variable {held held' own own' : List Handle}

/-! ### Heaps that are alike -/

/-- A renaming of which nothing is known about strings. -/
def Renaming.pairing (ρ : Renaming) : Pairing := ⟨ρ, ρ, fun _ _ => id⟩

/-- Two heaps that have come from given ones are alike, and so are the callers' handles. -/
structure Heap.Onwards (start : Heap) (ρ₀ : Renaming) (held held' : List Handle) (heap : Heap)
    (ρ : Renaming) (heap' : Heap) : Prop where
  onward : start.Onward ρ₀ held heap ρ heap'
  covers : ρ.Covers held held'

/-- An operation with more roots leads on. -/
theorem Heap.Onwards.next {start heap heap' mid mid' : Heap} {ρ₀ ρ ρ' : Renaming}
    (onwards : start.Onwards ρ₀ held held' heap ρ heap')
    (next : heap.Onward ρ (held ++ own) mid ρ' mid') :
    start.Onwards ρ₀ held held' mid ρ' mid' ∧ ρ.pairing.Stays own own' ρ'.pairing := by
  have held := next.mono fun g hg => List.mem_append_left own hg
  have stays : ∀ g h, g ∈ own → h ∈ own' → ρ g h → ρ' g h := fun g h hg _ hpair =>
    next.pairs g h hpair (.root (List.mem_append_right _ hg))
  exact ⟨⟨onwards.onward.trans held, held.covers onwards.covers⟩, stays, stays⟩

/-- Heaps that are alike, and that have come from two given ones, correspond. -/
def Correspondence.ofAlike (start : Heap) (ρ₀ : Renaming) (held held' : List Handle) :
    Correspondence held held' where
  holds heap π heap' := ∃ ρ, π = ρ.pairing ∧ start.Onwards ρ₀ held held' heap ρ heap'
  intern := by
    rintro heap heap' _ own own' text ⟨ρ, rfl, honwards⟩ hown
    refine (honwards.onward.alike.intern (honwards.covers.append hown) text).imp ?_
    rintro h mid h' mid' ⟨ρ', hnext, hpair, -⟩
    obtain ⟨hmid, hstays⟩ := honwards.next hnext
    exact ⟨ρ'.pairing, ⟨ρ', rfl, hmid⟩, hpair, hstays⟩
  allocate := by
    rintro heap heap' _ own own' f f' ⟨ρ, rfl, honwards⟩ hown same - - children -
    refine (honwards.onward.alike.allocate (honwards.covers.append hown) (.function same)
      (fun _ => Object.noConfusion) fun c hc => .root (List.mem_append_right held
        (children c hc))).imp ?_
    rintro h mid h' mid' ⟨ρ', hnext, hpair, -⟩
    obtain ⟨hmid, hstays⟩ := honwards.next hnext
    exact ⟨ρ'.pairing, ⟨ρ', rfl, hmid⟩, hpair, hstays⟩

/-! ### Heaps that are fit -/

namespace Heap

variable {start heap heap' mid mid' : Heap} {roots more : List Handle} {g h h' : Handle}
  {o : Object} {k : Constant} {text : String}

/-- What an operation with given roots leaves that gives back the handle of an object. -/
structure Yields (start : Heap) (roots : List Handle) (o : Object) (h : Handle) (heap : Heap) :
    Prop where
  orderly : heap.Orderly
  size : start.slots.size ≤ heap.slots.size
  gray : ∀ g ∈ heap.gray, g ∈ start.gray
  keeps : start.Keeps roots heap
  self : heap.object? h = some o
  old : ∀ g found, heap.object? g = some found →
    (g = h ∧ found = o) ∨ start.object? g = some found

/-- An allocation yields its object. -/
theorem Allocated.yields (allocated : Allocated start roots o h heap) :
    Yields start roots o h heap := by
  have ⟨mid, hpruned, hplaced⟩ := allocated
  exact ⟨hplaced.orderly, hpruned.size ▸ hplaced.size,
    fun g hg => hpruned.gray g (hplaced.gray ▸ hg), allocated.keeps, hplaced.object?_self,
    fun g found ho => (allocated.old ho).imp_right And.right⟩

/-- Interning yields a string. -/
theorem InternedAs.yields (interned : InternedAs start roots text h heap)
    (orderly : start.Orderly) : Yields start roots (.string text) h heap := by
  have shape : start.slots.size ≤ heap.slots.size ∧ ∀ g ∈ heap.gray, g ∈ start.gray := by
    cases interned with
    | found => exact ⟨Nat.le_refl _, fun _ => id⟩
    | made _ hallocated => exact ⟨hallocated.yields.size, hallocated.yields.gray⟩
  exact ⟨interned.orderly orderly, shape.1, shape.2, interned.keeps, interned.object?_self,
    fun _ _ ho => interned.old ho⟩

/-- What is reached afterwards was reached before, or it is the object itself. -/
theorem Yields.reaches_back (yields : Yields start roots o h heap)
    (children : ∀ c, .object c ∈ o.children → start.Reaches more c) {less : List Handle}
    (subset : ∀ g ∈ less, g = h ∨ g ∈ more) (reaches : heap.Reaches less g) :
    start.Reaches more g ∨ g = h := by
  refine reaches.induct (P := fun g => start.Reaches more g ∨ g = h) (fun g hg => ?_)
    fun g found hg ho c hc => ?_
  · exact (subset g hg).symm.imp_left .root
  · rcases yields.old g found ho with ⟨-, rfl⟩ | hold
    · exact .inl (children c hc)
    · rcases hg with hg | rfl
      · exact .inl (hg.child hold hc)
      · -- the object itself, whose handle may have been in use before
        obtain rfl := Option.some.inj (ho.symm.trans yields.self)
        exact .inl (children c hc)

/-- A heap is **fit** for given roots if they reach live objects only, and no marked object leads
out of range. Of other objects nothing is asked. -/
structure Fit (heap : Heap) (roots : List Handle) : Prop where
  orderly : heap.Orderly
  live : ∀ g, heap.Reaches roots g → heap.Live g
  marked : ∀ g, heap.Reaches heap.gray g → heap.InRange g

/-- A heap that is fit does not stray. -/
theorem Fit.not_strays (fit : heap.Fit roots) : ¬ heap.Strays (roots ++ heap.gray) := by
  rintro ⟨g, hreach, hfar⟩
  rcases reaches_append_iff.mp hreach with hreach | hreach
  · exact hfar (fit.live g hreach).inRange
  · exact hfar (fit.marked g hreach)

/-- Fewer roots make it no less fit. -/
theorem Fit.mono (fit : heap.Fit more) (subset : ∀ g ∈ roots, g ∈ more) : heap.Fit roots :=
  ⟨fit.orderly, fun g hreach => fit.live g (hreach.mono subset), fit.marked⟩

/-- An operation that yields an object whose children the roots reach leaves the heap fit. -/
theorem Fit.yields (fit : start.Fit roots) (yields : Yields start roots o h heap)
    (children : ∀ c, .object c ∈ o.children → start.Reaches roots c) : heap.Fit roots := by
  refine ⟨yields.orderly, fun g hreach => ?_, fun g hreach => ?_⟩
  · rcases yields.reaches_back children (fun _ => .inr) hreach with hbefore | rfl
    · exact yields.keeps.live hbefore (fit.live g hbefore)
    · exact ⟨o, yields.self⟩
  · have hback : start.Reaches (start.gray ++ roots) g ∨ g = h :=
      yields.reaches_back (fun c hc => (children c hc).mono fun _ => List.mem_append_right _)
        (fun g hg => .inr (List.mem_append_left _ (yields.gray g hg))) hreach
    rcases hback with hbefore | rfl
    · refine Nat.lt_of_lt_of_le ?_ yields.size
      rcases reaches_append_iff.mp hbefore with hbefore | hbefore
      · exact fit.marked g hbefore
      · exact (fit.live g hbefore).inRange
    · exact Live.inRange ⟨o, yields.self⟩

/-- Interning in a heap that is fit yields a string, or overflows. -/
theorem Fit.intern (fit : heap.Fit roots) (text : String) :
    (∃ h heap', Heap.intern text roots heap = .ok h heap' ∧
      Yields heap roots (.string text) h heap') ∨
    ∃ heap', Heap.intern text roots heap = .error .overflow heap' ∧ heap'.Overfull := by
  rcases intern_cases fit.orderly text roots with
    ⟨h, heap', hrun, hinterned⟩ | hover | ⟨-, -, hstray⟩
  · exact .inl ⟨h, heap', hrun, hinterned.yields fit.orderly⟩
  · exact .inr hover
  · exact absurd hstray fit.not_strays

/-- Allocating in a heap that is fit yields the object, or overflows. -/
theorem Fit.allocate (fit : heap.Fit roots) (o : Object) :
    (∃ h heap', Heap.allocate o roots heap = .ok h heap' ∧ Yields heap roots o h heap') ∨
    ∃ heap', Heap.allocate o roots heap = .error .overflow heap' ∧ heap'.Overfull := by
  rcases allocate_cases fit.orderly o roots with
    ⟨h, heap', hrun, hallocated⟩ | hover | ⟨-, -, hstray⟩
  · exact .inl ⟨h, heap', hrun, hallocated.yields⟩
  · exact .inr hover
  · exact absurd hstray fit.not_strays

/-! ### The same constants -/

/-- What an object that resolves to a constant refers to resolves to constants. -/
theorem Holds.child (holds : heap.Holds (.object h) k) (ho : heap.object? h = some o)
    (hc : .object g ∈ o.children) : ∃ k', heap.Holds (.object g) k' := by
  cases holds with
  | text hs =>
      obtain rfl := Option.some.inj (ho.symm.trans hs)
      cases hc
  | @function _ f name constants hf hnamed hsize hall =>
      obtain rfl := Option.some.inj (ho.symm.trans hf)
      simp only [Object.children, List.mem_append, Option.mem_toList, Option.map_eq_some_iff,
        Value.object.injEq, exists_eq_right, Array.mem_toList_iff] at hc
      rcases hc with hname | hmem
      · rw [hname] at hnamed
        cases name with
        | none => exact hnamed.elim
        | some text => exact ⟨.text text, .text hnamed⟩
      · obtain ⟨i, hi, hget⟩ := Array.getElem_of_mem hmem
        have hi' : i < constants.length := hsize ▸ hi
        exact ⟨constants[i], hall i _ _ (by rw [Array.getElem?_eq_getElem hi, hget])
          (List.getElem?_eq_getElem hi')⟩

/-- All that is reached from handles which resolve to constants is live. -/
theorem live_of_holds (resolved : ∀ g ∈ roots, ∃ k, heap.Holds (.object g) k)
    (reaches : heap.Reaches roots g) : heap.Live g := by
  have resolves : ∃ k, heap.Holds (.object g) k := by
    refine reaches.induct (P := fun g => ∃ k, heap.Holds (.object g) k) resolved ?_
    rintro g o ⟨k, hk⟩ ho c hc
    exact hk.child ho hc
  obtain ⟨k, hk⟩ := resolves
  cases hk with
  | text hs => exact ⟨_, hs⟩
  | function hf => exact ⟨_, hf⟩

/-- A heap is fit for further roots that resolve to constants. -/
theorem Fit.append (fit : heap.Fit roots) (resolved : ∀ g ∈ more, ∃ k, heap.Holds (.object g) k) :
    heap.Fit (roots ++ more) :=
  ⟨fit.orderly, fun g hreach => (reaches_append_iff.mp hreach).elim (fit.live g)
    (live_of_holds resolved), fit.marked⟩

/-- The handles of two heaps that resolve to the same constant, and among them the strings. -/
def resolving (heap heap' : Heap) : Pairing where
  all g h := ∃ k, heap.Holds (.object g) k ∧ heap'.Holds (.object h) k
  texts g h := ∃ s, heap.object? g = some (.string s) ∧ heap'.object? h = some (.string s)
  all_of_texts := by
    rintro g h ⟨s, hs, hs'⟩
    exact ⟨.text s, .text hs, .text hs'⟩

/-- A constant that a root resolves to is the same constant in a heap that keeps the roots. -/
theorem Holds.root (holds : heap.Holds (.object g) k) (keeps : heap.Keeps roots mid)
    (mem : g ∈ roots) : mid.Holds (.object g) k :=
  holds.later keeps fun _ heq => by
    cases heq
    exact .root mem

/-- Handles that resolve to the same constant still do so if both heaps keep them. -/
theorem resolving_stays (keeps : heap.Keeps (roots ++ own) mid)
    (keeps' : heap'.Keeps (more ++ own') mid') :
    (heap.resolving heap').Stays own own' (mid.resolving mid') := by
  constructor
  · rintro g h hg hh ⟨k, hk, hk'⟩
    exact ⟨k, hk.root keeps (List.mem_append_right _ hg),
      hk'.root keeps' (List.mem_append_right _ hh)⟩
  · rintro g h hg hh ⟨s, hs, hs'⟩
    exact ⟨s, keeps g _ (.root (List.mem_append_right _ hg)) hs,
      keeps' h _ (.root (List.mem_append_right _ hh)) hs'⟩

/-- Constants that are alike resolve to the same constants. -/
theorem holdsAll_of_alike {vs ws : Array Value}
    (same : List.Forall₂ (Value.Alike (heap.resolving heap').all) vs.toList ws.toList)
    (pooled : ∀ v ∈ vs.toList, v.Pooled) :
    ∃ ks, heap.HoldsAll vs ks ∧ heap'.HoldsAll ws ks := by
  unfold HoldsAll
  generalize vs.toList = vs at same pooled
  generalize ws.toList = ws at same
  induction same with
  | nil => exact ⟨[], .nil, .nil⟩
  | @cons v w vs ws hvalue _ ih =>
      obtain ⟨ks, hks, hks'⟩ := ih fun v hv => pooled v (List.mem_cons_of_mem _ hv)
      have hpooled := pooled v (List.mem_cons_self ..)
      cases hvalue with
      | nil | bool => exact hpooled.elim
      | number x => exact ⟨.number x :: ks, .cons .number hks, .cons .number hks'⟩
      | object hpair =>
          obtain ⟨k, hk, hk'⟩ := hpair
          exact ⟨k :: ks, .cons hk hks, .cons hk' hks'⟩

/-- Functions that are alike are alike in heaps that keep their constants and their names. -/
theorem resolving_mono {f f' : Function} {π : Pairing} (same : f.Alike π.all f')
    (names : Option.Rel π.texts f.name f'.name) {π' : Pairing} (stays : π.Stays own own' π')
    (children : ∀ c, .object c ∈ (Object.function f).children → c ∈ own)
    (children' : ∀ c, .object c ∈ (Object.function f').children → c ∈ own') :
    f.Alike π'.all f' ∧ Option.Rel π'.texts f.name f'.name := by
  have alike : (Object.function f).Alike π'.all (.function f') :=
    (Object.Alike.function same).mono fun g h hpair hg hh =>
      stays.all g h (children g hg) (children' h hh) hpair
  refine ⟨by cases alike; assumption, ?_⟩
  cases hn : f.name <;> cases hn' : f'.name <;> rw [hn, hn'] at names <;> cases names
  · exact .none
  · rename_i hpair
    exact .some (stays.texts _ _ (children _ (by simp [Object.children, hn]))
      (children' _ (by simp [Object.children, hn'])) hpair)

/-- Functions that are alike resolve to the same constant. -/
theorem resolving_function {f f' : Function} (same : f.Alike (heap.resolving heap').all f')
    (names : Option.Rel (heap.resolving heap').texts f.name f'.name)
    (pooled : ∀ v ∈ f.chunk.constants.toList, v.Pooled) (ho : heap.object? h = some (.function f))
    (ho' : heap'.object? h' = some (.function f')) : (heap.resolving heap').all h h' := by
  obtain ⟨ks, hks, hks'⟩ := holdsAll_of_alike same.constants pooled
  have named : ∃ name, heap.Named f.name name ∧ heap'.Named f'.name name := by
    cases hn : f.name <;> cases hn' : f'.name <;> rw [hn, hn'] at names <;> cases names
    · exact ⟨none, trivial, trivial⟩
    · rename_i htext
      obtain ⟨s, hs, hs'⟩ := htext
      exact ⟨some s, hs, hs'⟩
  obtain ⟨name, hname, hname'⟩ := named
  have htemplate : f'.template name = f.template name := by
    simp [Function.template, same.arity, same.upvalueCount, same.code, same.lines]
  refine ⟨.function (f.template name) ks, (holds_function_iff ho).mpr ⟨_, _, rfl, hname, hks⟩, ?_⟩
  exact (holds_function_iff ho').mpr ⟨_, _, by rw [htemplate], hname', hks'⟩

/-- Two heaps that have come from given ones are fit, and still have all that the callers
hold. -/
structure Fits (start start' : Heap) (held held' : List Handle) (heap heap' : Heap) : Prop where
  fit : heap.Fit held
  fit' : heap'.Fit held'
  keeps : start.Keeps held heap
  keeps' : start'.Keeps held' heap'

/-- After operations that yield objects, heaps are still fit, and the handles that the operations
were to keep still resolve to the same constants. -/
theorem Fits.next {start' : Heap} {o' : Object}
    (fits : start.Fits start' held held' heap heap')
    (yields : Yields heap (held ++ own) o h mid) (yields' : Yields heap' (held' ++ own') o' h' mid')
    (fit : heap.Fit (held ++ own)) (fit' : heap'.Fit (held' ++ own'))
    (children : ∀ c, .object c ∈ o.children → c ∈ own)
    (children' : ∀ c, .object c ∈ o'.children → c ∈ own') :
    start.Fits start' held held' mid mid' ∧
      (heap.resolving heap').Stays own own' (mid.resolving mid') := by
  have hmem : ∀ {held own : List Handle}, ∀ g ∈ held, g ∈ held ++ own :=
    fun _ hg => List.mem_append_left _ hg
  have hown : ∀ {heap : Heap} {held own : List Handle} {g}, g ∈ own →
    heap.Reaches (held ++ own) g :=
    fun hg => .root (List.mem_append_right _ hg)
  refine ⟨⟨?_, ?_, ?_, ?_⟩, resolving_stays yields.keeps yields'.keeps⟩
  · exact (fit.yields yields fun c hc => hown (children c hc)).mono hmem
  · exact (fit'.yields yields' fun c hc => hown (children' c hc)).mono hmem
  · exact fits.keeps.trans (yields.keeps.mono hmem) fun _ hg => .root hg
  · exact fits.keeps'.trans (yields'.keeps.mono hmem) fun _ hg => .root hg

end Heap

/-- Handles whose partners are covered resolve to constants. -/
theorem Heap.resolved_of_covers {heap heap' : Heap}
    (covers : (heap.resolving heap').all.Covers own own') :
    (∀ g ∈ own, ∃ k, heap.Holds (.object g) k) ∧ ∀ h ∈ own', ∃ k, heap'.Holds (.object h) k := by
  constructor
  · intro g hg
    obtain ⟨h, -, k, hk, -⟩ := covers.right g hg
    exact ⟨k, hk⟩
  · intro h hh
    obtain ⟨g, -, k, -, hk⟩ := covers.left h hh
    exact ⟨k, hk⟩

/-- Heaps that are fit, and that have come from two given ones, correspond. -/
def Correspondence.ofFit (start start' : Heap) (held held' : List Handle) :
    Correspondence held held' where
  holds heap π heap' := π = heap.resolving heap' ∧ start.Fits start' held held' heap heap'
  intern := by
    rintro heap heap' _ own own' text ⟨rfl, fits⟩ hown
    obtain ⟨hresolved, hresolved'⟩ := Heap.resolved_of_covers hown
    have fit := fits.fit.append hresolved
    have fit' := fits.fit'.append hresolved'
    rcases fit.intern text with ⟨h, mid, hrun, yields⟩ | ⟨mid, hrun, hover⟩
    · rcases fit'.intern text with ⟨h', mid', hrun', yields'⟩ | ⟨mid', hrun', hover⟩
      · rw [hrun, hrun']
        obtain ⟨hmid, hstays⟩ := fits.next yields yields' fit fit'
          (by simp [Object.children]) (by simp [Object.children])
        exact .ok ⟨_, ⟨rfl, hmid⟩, ⟨text, yields.self, yields'.self⟩, hstays⟩
      · rw [hrun']
        exact .second ⟨rfl, hover⟩
    · rw [hrun]
      exact .first ⟨rfl, hover⟩
  allocate := by
    rintro heap heap' _ own own' f f' ⟨rfl, fits⟩ hown same names pooled children children'
    obtain ⟨hresolved, hresolved'⟩ := Heap.resolved_of_covers hown
    have fit := fits.fit.append hresolved
    have fit' := fits.fit'.append hresolved'
    rcases fit.allocate (.function f) with ⟨h, mid, hrun, yields⟩ | ⟨mid, hrun, hover⟩
    · rcases fit'.allocate (.function f') with ⟨h', mid', hrun', yields'⟩ | ⟨mid', hrun', hover⟩
      · rw [hrun, hrun']
        obtain ⟨hmid, hstays⟩ := fits.next yields yields' fit fit' children children'
        obtain ⟨hsame, hnames⟩ := Heap.resolving_mono same names hstays children children'
        exact .ok ⟨_, ⟨rfl, hmid⟩,
          Heap.resolving_function hsame hnames pooled yields.self yields'.self, hstays⟩
      · rw [hrun']
        exact .second ⟨rfl, hover⟩
    · rw [hrun]
      exact .first ⟨rfl, hover⟩

end Lox
