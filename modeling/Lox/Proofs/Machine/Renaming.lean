import Lox.Proofs.Heap.Answers
import Lox.Proofs.Machine.Actions

/-!
# Machines that differ in their handles

The machine asks of a handle only what is behind it, and whether it is the same as another one.
From two machines that differ in their handles only, every action gives the same answer, raises
the same runtime error or meets the same fault, and leaves machines that differ in their handles
only. When a collection strikes does not matter, since everything that an action still needs is
a root by then.

## Main definitions

* `Machine.Alike` — machines that differ in their handles only.
* `Machine.Agrees`, `Machine.Finds` — actions that agree, and those that only look at machines.

## Main results

* `Alike.move` — an operation of the heap leaves machines that are alike.
* `push_agrees`, `closeFrom_agrees`, `raise_agrees`, `withRoots_agrees` — the primitive actions.
-/

namespace Lox

/-- The same call up to a renaming. -/
structure Frame.Alike (ρ : Renaming) (fr fr' : Frame) : Prop where
  closure : ρ fr.closure fr'.closure
  function : ρ fr.function fr'.function
  ip : fr'.ip = fr.ip
  slots : fr'.slots = fr.slots

/-- The same globals up to a renaming of their names and values. -/
structure Globals.Alike (ρ : Renaming) (G G' : Globals) : Prop where
  right : ∀ g v, G[g]? = some v → ∃ h w, ρ g h ∧ G'[h]? = some w ∧ v.Alike ρ w
  left : ∀ h w, G'[h]? = some w → ∃ g v, ρ g h ∧ G[g]? = some v ∧ v.Alike ρ w

namespace Machine

/-! ### Machines -/

/-- Two machines are **alike** under a renaming when they differ in their handles only. -/
structure Alike (m : Machine) (ρ : Renaming) (m' : Machine) : Prop where
  heap : m.heap.Alike ρ m'.heap
  stack : List.Forall₂ (Value.Alike ρ) m.stack.toList m'.stack.toList
  frames : List.Forall₂ (Frame.Alike ρ) m.frames m'.frames
  openCells : List.Forall₂ (fun e e' => e'.1 = e.1 ∧ ρ e.2 e'.2) m.openCells.entries
    m'.openCells.entries
  globals : Globals.Alike ρ m.globals m'.globals
  printout : m'.printout = m.printout
  diagnostics : m'.diagnostics = m.diagnostics
  stackMax : m'.stackMax = m.stackMax
  clock : m'.clock = m.clock
  hostCalls : m'.hostCalls = m.hostCalls
  /-- A call runs the function of its closure. -/
  entered : ∀ fr ∈ m.frames, ∃ c, m.heap.object? fr.closure = some (.closure c) ∧
    c.function = fr.function
  obliging : m.heap.Obliging

variable {m m' n n' : Machine} {ρ ρ' : Renaming} {α β γ δ : Type} {g h : Handle} {v w : Value}
  {fr fr' : Frame} {mid mid' : Heap}

/-- The stacks have the same size. -/
theorem Alike.size (alike : m.Alike ρ m') : m'.stack.size = m.stack.size :=
  alike.stack.length_eq.symm

/-- The values in a slot. -/
theorem Alike.slot (alike : m.Alike ρ m') (i : Nat) :
    Option.Rel (Value.Alike ρ) m.stack[i]? m'.stack[i]? := by
  rw [← Array.getElem?_toList, ← Array.getElem?_toList]
  exact forall₂_getElem? alike.stack i

/-- Everything that one machine keeps alive has its partner among what the other keeps alive. -/
theorem Alike.covers (alike : m.Alike ρ m') : ρ.Covers m.rooted m'.rooted := by
  constructor
  · intro g hg
    simp only [mem_rooted] at hg ⊢
    rcases hg with hg | ⟨fr, hfr, rfl⟩ | ⟨e, he, rfl⟩ | ⟨name, v, hv, hg⟩
    · obtain ⟨w, hw, hvalue⟩ := exists_of_forall₂ alike.stack.flip hg
      cases hvalue with
      | object hpair => exact ⟨_, .inl hw, hpair⟩
    · obtain ⟨fr', hfr', hframe⟩ := exists_of_forall₂ alike.frames.flip hfr
      exact ⟨_, .inr (.inl ⟨fr', hfr', rfl⟩), hframe.closure⟩
    · obtain ⟨e', he', -, hpair⟩ := exists_of_forall₂ alike.openCells.flip he
      exact ⟨_, .inr (.inr (.inl ⟨e', he', rfl⟩)), hpair⟩
    · obtain ⟨name', w, hpair, hw, hvalue⟩ := alike.globals.right name v hv
      rcases hg with rfl | rfl
      · exact ⟨name', .inr (.inr (.inr ⟨name', w, hw, .inl rfl⟩)), hpair⟩
      · cases hvalue with
        | object hpair' => exact ⟨_, .inr (.inr (.inr ⟨name', _, hw, .inr rfl⟩)), hpair'⟩
  · intro h hh
    simp only [mem_rooted] at hh ⊢
    rcases hh with hh | ⟨fr, hfr, rfl⟩ | ⟨e, he, rfl⟩ | ⟨name, w, hw, hh⟩
    · obtain ⟨v, hv, hvalue⟩ := exists_of_forall₂ alike.stack hh
      cases hvalue with
      | object hpair => exact ⟨_, .inl hv, hpair⟩
    · obtain ⟨fr', hfr', hframe⟩ := exists_of_forall₂ alike.frames hfr
      exact ⟨_, .inr (.inl ⟨fr', hfr', rfl⟩), hframe.closure⟩
    · obtain ⟨e', he', -, hpair⟩ := exists_of_forall₂ alike.openCells he
      exact ⟨_, .inr (.inr (.inl ⟨e', he', rfl⟩)), hpair⟩
    · obtain ⟨name', v, hpair, hv, hvalue⟩ := alike.globals.left name w hw
      rcases hh with rfl | rfl
      · exact ⟨name', .inr (.inr (.inr ⟨name', v, hv, .inl rfl⟩)), hpair⟩
      · cases hvalue with
        | object hpair' => exact ⟨_, .inr (.inr (.inr ⟨name', _, hv, .inr rfl⟩)), hpair'⟩

/-- The function of a call is reached. -/
theorem Alike.reaches_function (alike : m.Alike ρ m') (mem : fr ∈ m.frames) :
    m.heap.Reaches m.rooted fr.function := by
  obtain ⟨c, hc, heq⟩ := alike.entered fr mem
  exact (Heap.Reaches.root (mem_rooted.mpr (.inr (.inl ⟨fr, mem, rfl⟩)))).child hc
    (by simp [Object.children, heq])

/-- An operation of the heap that is given the roots leaves machines that are alike. -/
theorem Alike.move (alike : m.Alike ρ m') (onward : m.heap.Onward ρ m.rooted mid ρ' mid')
    (obliging : mid.Obliging) :
    ({ m with heap := mid } : Machine).Alike ρ' { m' with heap := mid' } := by
  have pairs : ∀ g h, ρ g h → g ∈ m.rooted → ρ' g h := fun g h hpair hg =>
    onward.pairs g h hpair (.root hg)
  have values : ∀ v w : Value, (∀ g, v = .object g → g ∈ m.rooted) → v.Alike ρ w → v.Alike ρ' w :=
    fun v w hv hvalue => hvalue.mono fun g h hpair heq _ => pairs g h hpair (hv g heq)
  refine { alike with
    heap := onward.alike, stack := ?_, frames := ?_, openCells := ?_, globals := ⟨?_, ?_⟩
    entered := ?_, obliging := obliging }
  · refine forall₂_mono alike.stack fun v hv w _ => values v w ?_
    rintro g rfl
    exact mem_rooted.mpr (.inl hv)
  · refine forall₂_mono alike.frames fun fr hfr fr' _ hframe =>
      { hframe with closure := ?_, function := ?_ }
    · exact pairs _ _ hframe.closure (mem_rooted.mpr (.inr (.inl ⟨fr, hfr, rfl⟩)))
    · exact onward.pairs _ _ hframe.function (alike.reaches_function hfr)
  · refine forall₂_mono alike.openCells fun e he e' _ => And.imp_right fun hpair => ?_
    exact pairs _ _ hpair (mem_rooted.mpr (.inr (.inr (.inl ⟨e, he, rfl⟩))))
  · intro g v hv
    obtain ⟨h, w, hpair, hw, hvalue⟩ := alike.globals.right g v hv
    refine ⟨h, w, pairs g h hpair ?_, hw, values v w ?_ hvalue⟩
    · exact mem_rooted.mpr (.inr (.inr (.inr ⟨g, v, hv, .inl rfl⟩)))
    · rintro f rfl
      exact mem_rooted.mpr (.inr (.inr (.inr ⟨g, _, hv, .inr rfl⟩)))
  · intro h w hw
    obtain ⟨g, v, hpair, hv, hvalue⟩ := alike.globals.left h w hw
    refine ⟨g, v, pairs g h hpair ?_, hv, values v w ?_ hvalue⟩
    · exact mem_rooted.mpr (.inr (.inr (.inr ⟨g, v, hv, .inl rfl⟩)))
    · rintro f rfl
      exact mem_rooted.mpr (.inr (.inr (.inr ⟨g, _, hv, .inr rfl⟩)))
  · intro fr hfr
    obtain ⟨c, hc, heq⟩ := alike.entered fr hfr
    exact ⟨c, onward.keeps _ _ (.root (mem_rooted.mpr (.inr (.inl ⟨fr, hfr, rfl⟩)))) hc, heq⟩

/-! ### Actions that agree -/

/-- The same failure: the same runtime error, which leaves machines that are alike, or the same
fault. -/
inductive Fails : Interruption → Machine → Interruption → Machine → Prop
  | raised {e : RuntimeError} {m m' : Machine} {ρ : Renaming} : m.Alike ρ m' →
      Fails (.raised e) m (.raised e) m'
  | fault {f : Fault} {m m' : Machine} : Fails (.fault f) m (.fault f) m'

/-- A fault that a machine need not share with one that is alike. -/
def Lost (e : Interruption) (m : Machine) : Prop := ∃ f, e = .fault f ∧ Heap.Lost f m.heap

/-- Two runs of an action that agree. -/
abbrev Agrees (R : α → Machine → β → Machine → Prop) :
    EStateM.Result Interruption Machine α → EStateM.Result Interruption Machine β → Prop :=
  Agree R Fails Lost

/-- Two actions that only look at two machines and find related answers. -/
abbrev Finds (m m' : Machine) (R : α → β → Prop) (x : Action α) (y : Action β) : Prop :=
  Agrees (fun a n b n' => n = m ∧ n' = m' ∧ R a b) (x m) (y m')

/-- The same answer, and machines that are alike. -/
def Goes (a : α) (m : Machine) (b : α) (m' : Machine) : Prop := b = a ∧ ∃ ρ, m.Alike ρ m'

/-- An action that follows two actions that only look. -/
theorem Finds.bind {R : α → β → Prop} {S : γ → Machine → δ → Machine → Prop} {x : Action α}
    {y : Action β} {f : α → Action γ} {k : β → Action δ} (first : Finds m m' R x y)
    (rest : ∀ a b, R a b → Agrees S (f a m) (k b m')) :
    Agrees S ((x >>= f) m) ((y >>= k) m') :=
  Agree.bind first fun a _ b _ ⟨hn, hn', h⟩ => hn ▸ hn' ▸ rest a b h

/-- Two actions that only answer. -/
theorem finds_pure {R : α → β → Prop} {a : α} {b : β} (related : R a b) :
    Finds m m' R (pure a) (pure b) := .ok ⟨rfl, rfl, related⟩

/-- Stopping with the same fault. -/
theorem stop_agrees {R : α → Machine → β → Machine → Prop} (f : Fault) :
    Agrees R (stop f m) (stop f m') := .fail .fault

/-- Questions that have related answers. -/
theorem ask_finds {R : α → β → Prop} {x : Machine → Except Fault α} {y : Machine → Except Fault β}
    (answers : Answers R (x m) (y m')) : Finds m m' R (ask x) (ask y) := by
  unfold Finds ask
  generalize x m = a at answers
  generalize y m' = b at answers
  cases answers with
  | ok h => exact .ok ⟨rfl, rfl, h⟩
  | error f => exact .fail .fault

/-- Questions that have the same answer. -/
theorem ask_finds_eq {x y : Machine → Except Fault α} (same : y m' = x m) :
    Finds m m' (fun a b => b = a ∧ x m = .ok a) (ask x) (ask y) := by
  refine ask_finds ?_
  rw [same]
  cases x m with
  | ok a => exact .ok ⟨rfl, rfl⟩
  | error f => exact .error f

/-- Values that must be there. -/
theorem demand_finds {R : α → β → Prop} {o : Option α} {o' : Option β}
    (related : Option.Rel R o o') : Finds m m' R (demand o) (demand o') := by
  cases related with
  | none => exact stop_agrees _
  | some h => exact finds_pure h

/-- The same value, which must be there. -/
theorem demand_finds_eq (o : Option α) : Finds m m' (fun a b => b = a) (demand o) (demand o) := by
  cases o with
  | none => exact stop_agrees _
  | some a => exact finds_pure rfl

/-! ### The stack -/

/-- Machines that are alike but for their stacks. -/
theorem Alike.restack (alike : m.Alike ρ m') {stack stack' : Array Value}
    (values : List.Forall₂ (Value.Alike ρ) stack.toList stack'.toList) :
    ({ m with stack } : Machine).Alike ρ { m' with stack := stack' } :=
      { alike with stack := values }

/-- Popping a value. -/
theorem pop_agrees (alike : m.Alike ρ m') :
    Agrees (fun v n w n' => n.Alike ρ n' ∧ v.Alike ρ w ∧ n = { m with stack := m.stack.pop } ∧
      n' = { m' with stack := m'.stack.pop }) (pop m) (pop m') := by
  rw [pop_apply, pop_apply]
  refine .ok ⟨alike.restack ?_, ?_, rfl, rfl⟩
  · rw [Array.toList_pop, Array.toList_pop, List.dropLast_eq_take, List.dropLast_eq_take,
      alike.stack.length_eq]
    exact List.forall₂_take _ alike.stack
  · have hback : Option.Rel (Value.Alike ρ) m.stack.back? m'.stack.back? := by
      rw [Array.back?, Array.back?, alike.size]
      exact alike.slot _
    generalize m.stack.back? = top at hback ⊢
    generalize m'.stack.back? = top' at hback ⊢
    cases hback with
    | none => exact .nil
    | some h => exact h

/-- Looking below the top of the stack. -/
theorem peek_finds (alike : m.Alike ρ m') (depth : Nat) :
    Finds m m' (Value.Alike ρ) (peek depth) (peek depth) := by
  unfold Finds peek
  rw [bind_of_ok (get_apply m), bind_of_ok (get_apply m'), alike.size]
  split
  · exact demand_finds (alike.slot _)
  · exact stop_agrees _

/-- Shortening the stack. -/
theorem Alike.truncate (alike : m.Alike ρ m') (size : Nat) :
    ({ m with stack := m.stack.shrink size } : Machine).Alike ρ
      { m' with stack := m'.stack.shrink size } :=
  alike.restack (by
    rw [Array.toList_shrink, Array.toList_shrink]
    exact List.forall₂_take _ alike.stack)

/-- Looking at a slot. -/
theorem slotValue_finds (alike : m.Alike ρ m') (slot : Nat) :
    Finds m m' (Value.Alike ρ) (slotValue slot) (slotValue slot) := by
  unfold Finds slotValue
  rw [bind_of_ok (get_apply m), bind_of_ok (get_apply m')]
  exact demand_finds (alike.slot slot)

/-- Setting a slot. -/
theorem setSlot_agrees (alike : m.Alike ρ m') (slot : Nat) (value : v.Alike ρ w) :
    Agrees (fun _ n _ n' => n.Alike ρ n') (setSlot slot v m) (setSlot slot w m') := by
  unfold setSlot
  rw [bind_of_ok (get_apply m), bind_of_ok (get_apply m'), alike.size]
  split
  · rw [modify_apply, modify_apply]
    refine .ok (alike.restack ?_)
    rw [Array.toList_setIfInBounds, Array.toList_setIfInBounds]
    exact forall₂_set alike.stack slot value
  · exact stop_agrees _

/-! ### Operations of the heap -/

/-- What an operation of the heap leaves of two machines: they are alike under another renaming,
in which all that is reached has the same partner. -/
structure Moves (m : Machine) (ρ : Renaming) (m' : Machine) (n : Machine) (ρ' : Renaming)
    (n' : Machine) : Prop where
  alike : n.Alike ρ' n'
  first : n = { m with heap := n.heap }
  second : n' = { m' with heap := n'.heap }
  pairs : ∀ g h, ρ g h → m.heap.Reaches m.rooted g → ρ' g h
  keeps : m.heap.Keeps m.rooted n.heap

/-- Operations of the heap that agree. -/
theorem withRoots_agrees (alike : m.Alike ρ m') {R : Renaming → α → α → Prop}
    {operation operation' : List Handle → HeapM α}
    (agree : Agree (fun a mid b mid' => ∃ ρ', m.heap.Onward ρ m.rooted mid ρ' mid' ∧ R ρ' a b)
      (fun f _ f' _ => f' = f) Heap.Lost (operation m.rooted m.heap) (operation' m'.rooted m'.heap))
    (obliging : ∀ a mid, operation m.rooted m.heap = .ok a mid → mid.Obliging) :
    Agrees (fun a n b n' => ∃ ρ', Moves m ρ m' n ρ' n' ∧ R ρ' a b) (withRoots operation m)
      (withRoots operation' m') := by
  unfold withRoots
  rw [show operation (roots m.stack m.frames m.openCells m.globals) m.heap = _ from rfl,
    show operation' (roots m'.stack m'.frames m'.openCells m'.globals) m'.heap = _ from rfl]
  simp only [rooted] at agree obliging
  generalize operation (roots m.stack m.frames m.openCells m.globals) m.heap =
    left at agree obliging
  generalize operation' (roots m'.stack m'.frames m'.openCells m'.globals) m'.heap = right at agree
  cases agree with
  | @ok a mid b mid' h =>
      obtain ⟨ρ', honward, hrelated⟩ := h
      exact .ok ⟨ρ', ⟨alike.move honward (obliging a mid rfl), rfl, rfl, honward.pairs,
        honward.keeps⟩, hrelated⟩
  | fail h =>
      subst h
      exact .fail .fault
  | first h => exact .first ⟨_, rfl, h⟩
  | second h => exact .second ⟨_, rfl, h⟩

/-- Replacing paired objects that are neither strings nor host functions. -/
theorem Alike.replace (alike : m.Alike ρ m') {o o' old : Object}
    (pair : ρ g h) (same : o.Alike ρ o')
    (hold : m.heap.object? g = some old) (before : old.kind = .cell ∨ old.kind = .closure)
    (after : o.kind = old.kind)
    (function : ∀ c, old = .closure c → ∃ c', o = .closure c' ∧ c'.function = c.function) :
    ({ m with heap := m.heap.replace g o } : Machine).Alike ρ
      { m' with heap := m'.heap.replace h o' } := by
  have nostring : ∀ {p : Object}, p.kind = .cell ∨ p.kind = .closure →
    ∀ text, p ≠ .string text := by
    rintro p (h | h) text rfl <;> cases h
  refine { alike with heap := ?_, entered := fun fr hfr => ?_, obliging := ?_ }
  · refine alike.heap.replace pair same hold (nostring before) (nostring (after ▸ before))
      fun c hc => ?_
    obtain ⟨w, -, hvalue⟩ := exists_of_forall₂ same.children.flip hc
    cases hvalue with
    | object hpair => exact (alike.heap.live hpair).1
  · obtain ⟨c, hc, heq⟩ := alike.entered fr hfr
    rw [Heap.object?_replace ⟨old, hold⟩]
    split
    · rename_i hself
      obtain rfl := Option.some.inj (hold.symm.trans (hself ▸ hc))
      obtain ⟨c', rfl, hfunction⟩ := function c rfl
      exact ⟨c', rfl, hfunction.trans heq⟩
    · exact ⟨c, hc, heq⟩
  · refine alike.obliging.replace hold ?_
    rintro n rfl
    rcases before with h | h <;> rw [h] at after <;> cases after

/-- Closing paired cells with values that are alike. -/
theorem closing_agrees (alike : m.Alike ρ m') (pair : ρ g h) (value : v.Alike ρ w) :
    Agrees (fun _ n _ n' => n.Alike ρ n' ∧ n = { m with heap := n.heap } ∧
        n' = { m' with heap := n'.heap })
      (onHeap (Heap.setCell g (.closed v)) m) (onHeap (Heap.setCell h (.closed w)) m') := by
  have hcell := alike.heap.cell pair
  unfold onHeap Heap.setCell
  cases hg : m.heap.cell g with
  | error f =>
      rw [hg] at hcell
      cases hh : m'.heap.cell h <;> rw [hh] at hcell <;> cases hcell
      exact .fail .fault
  | ok state =>
      rw [hg] at hcell
      cases hh : m'.heap.cell h <;> rw [hh] at hcell <;> cases hcell
      refine .ok ⟨alike.replace pair (.closed value) (Heap.cell_eq_ok_iff.mp hg) (.inl rfl) rfl ?_,
        rfl, rfl⟩
      rintro c ⟨⟩

/-- Closing the cells from a slot on. -/
theorem closeFrom_agrees (alike : m.Alike ρ m') (slot : Nat) :
    Agrees (fun _ n _ n' => n.Alike ρ n' ∧ n.stack = m.stack ∧ n'.stack = m'.stack ∧
        n.frames = m.frames ∧ n'.frames = m'.frames)
      (closeFrom slot m) (closeFrom slot m') := by
  have closing : ∀ {es es' : List (Nat × Handle)},
      List.Forall₂ (fun e e' => e'.1 = e.1 ∧ ρ e.2 e'.2) es es' → ∀ {m m' : Machine}, m.Alike ρ m' →
        Agrees (fun _ n _ n' => n.Alike ρ n' ∧ n.stack = m.stack ∧ n'.stack = m'.stack ∧
            n.frames = m.frames ∧ n'.frames = m'.frames)
          ((es.forM fun e => closeCell e.1 e.2 : Action Unit) m)
          ((es'.forM fun e => closeCell e.1 e.2 : Action Unit) m') := by
    intro es es' all
    induction all with
    | nil => exact fun halike => .ok ⟨halike, rfl, rfl, rfl, rfl⟩
    | @cons e e' es es' he _ ih =>
        intro m m' halike
        have hfirst : Agrees (fun _ n _ n' => n.Alike ρ n' ∧ n = { m with heap := n.heap } ∧
            n' = { m' with heap := n'.heap }) (closeCell e.1 e.2 m) (closeCell e'.1 e'.2 m') := by
          unfold closeCell
          rw [he.1]
          exact (slotValue_finds halike e.1).bind fun v w hvalue =>
            closing_agrees halike he.2 hvalue
        refine Agree.bind (x := closeCell e.1 e.2) hfirst ?_
        rintro _ n _ n' ⟨hnext, hn, hn'⟩
        refine (ih hnext).imp ?_
        rintro _ k _ k' ⟨hlast, hstack, hstack', hframes, hframes'⟩
        exact ⟨hlast, hstack.trans (by rw [hn]), hstack'.trans (by rw [hn']),
          hframes.trans (by rw [hn]), hframes'.trans (by rw [hn'])⟩
  have same : ∀ (e e' : Nat × Handle), e'.1 = e.1 ∧ ρ e.2 e'.2 →
      decide (e'.1 < slot) = decide (e.1 < slot) := fun e e' he => by rw [he.1]
  unfold closeFrom
  rw [bind_of_ok (get_apply m), bind_of_ok (get_apply m')]
  have hkept : ({ m with openCells := (m.openCells.splitFrom slot).2 } : Machine).Alike ρ
      { m' with openCells := (m'.openCells.splitFrom slot).2 } :=
    { alike with openCells := forall₂_takeWhile alike.openCells same }
  exact closing (forall₂_dropWhile alike.openCells same) hkept

/-! ### Runtime errors -/

/-- The lines of a trace for calls that are alike. -/
theorem traceLine_eq (alike : m.heap.Alike ρ m'.heap) (frame : fr.Alike ρ fr') :
    traceLine m'.heap fr' = traceLine m.heap fr := by
  unfold traceLine
  refine ((alike.function frame.function).bind fun f f' hf => ?_).eq
  have hname : Answers (fun a b => b = a) (f.name.mapM m.heap.string)
      (f'.name.mapM m'.heap.string) := by
    have hrel := hf.1.name
    generalize f.name = name at hrel ⊢
    generalize f'.name = name' at hrel ⊢
    cases hrel with
    | none => exact .refl _
    | some hpair =>
        change Answers _ (some <$> m.heap.string _) (some <$> m'.heap.string _)
        rw [alike.string hpair]
        exact .refl _
  refine hname.bind fun a b hab => ?_
  rw [hab, hf.1.lines, frame.ip]
  exact .refl _

/-- Raising the same runtime error. -/
theorem raise_agrees (alike : m.Alike ρ m') (cause : Cause)
    {R : α → Machine → α → Machine → Prop} : Agrees R (raise cause m) (raise cause m') := by
  unfold raise
  have htrace : Answers (fun a b => b = a) (m.frames.mapM (traceLine m.heap))
      (m'.frames.mapM (traceLine m'.heap)) := by
    have hlines : Answers (List.Forall₂ fun a b : TraceLine => b = a)
      (m.frames.mapM (traceLine m.heap))
        (m'.frames.mapM (traceLine m'.heap)) := .mapM alike.frames fun fr fr' hframe => by
      rw [traceLine_eq alike.heap hframe]
      exact .refl _
    generalize m.frames.mapM (traceLine m.heap) = x at hlines
    generalize m'.frames.mapM (traceLine m'.heap) = y at hlines
    cases hlines with
    | ok h =>
        exact .ok (List.forall₂_eq_eq_eq ▸ h.flip)
    | error f => exact .refl _
  refine (ask_finds htrace).bind fun a b hab => ?_
  subst hab
  refine Agree.bind (show Agrees (fun _ n _ n' => n.Alike ρ n') (reset m) (reset m') from ?_)
    fun _ _ _ _ hreset => .fail (.raised hreset)
  unfold reset
  refine (closeFrom_agrees alike 0).bind ?_
  rintro _ n _ n' ⟨hclosed, -⟩
  rw [modify_apply, modify_apply]
  exact .ok { hclosed with stack := .nil, frames := .nil, entered := by simp }

/-- Pushing values that are alike. -/
theorem push_agrees (alike : m.Alike ρ m') (value : v.Alike ρ w) :
    Agrees (fun _ n _ n' => n.Alike ρ n' ∧ n = { m with stack := m.stack.push v } ∧
        n' = { m' with stack := m'.stack.push w }) (push v m) (push w m') := by
  have hfull : m'.stackMax ≤ m'.stack.size ↔ m.stackMax ≤ m.stack.size := by
    rw [alike.size, alike.stackMax]
  unfold push
  by_cases full : m.stackMax ≤ m.stack.size
  · rw [if_pos full, if_pos (hfull.mpr full)]
    exact raise_agrees alike _
  · rw [if_neg full, if_neg (hfull.not.mpr full)]
    refine .ok ⟨alike.restack ?_, rfl, rfl⟩
    rw [Array.toList_push, Array.toList_push]
    exact List.rel_append alike.stack (.cons value .nil)

end Machine

end Lox
