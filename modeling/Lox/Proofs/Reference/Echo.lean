import Lox.Proofs.Machine.Actions
import Lox.Proofs.Reference.Mirror

/-!
# Actions and their echoes

Every action of the machine has its counterpart on the reference machine. When a machine mirrors
a reference machine, the two answer alike and mirror each other afterwards, or both raise the same
runtime error. Nothing is said of a machine that faults, nor of one that finds its code broken.

A value may only leave the stack when no open cell stands for its slot: the cell would lose its
variable. Closing the cells of some slots first makes room for that.

## Main definitions

* `Machine.Echoes`, `Machine.Sees` — actions with their counterparts.

## Main results

* `raise_echoes`, `push_echoes`, `pop_echoes`, `peek_sees`, `Mirroring.closeFrom` — the primitive
  actions.
-/

namespace Lox

namespace Machine

variable {m n : Machine} {r s : Reference} {π : Picture} {α β γ δ : Type} {g h : Handle}
  {v w : Value} {d e : Datum} {fr : Frame} {a : Reference.Activation}

/-- The result of an action and of its counterpart. -/
inductive Echoes (R : α → Machine → β → Reference → Prop) :
    EStateM.Result Interruption Machine α → EStateM.Result Interruption Reference β → Prop
  | ok {a : α} {m : Machine} {b : β} {r : Reference} : R a m b r → Echoes R (.ok a m) (.ok b r)
  | raised {e : RuntimeError} {m : Machine} {r : Reference} {π : Picture} : Mirrors π m r →
      Echoes R (.error (.raised e) m) (.error (.raised e) r)
  | broken {e : RuntimeError} {m : Machine} {other : EStateM.Result Interruption Reference β} :
      e.cause.kind = .invalidBytecode → Echoes R (.error (.raised e) m) other
  | fault {f : Fault} {m : Machine} {other : EStateM.Result Interruption Reference β} :
      Echoes R (.error (.fault f) m) other

/-- An action that only looks at the machine, and its counterpart. -/
abbrev Sees (m : Machine) (r : Reference) (R : α → β → Prop) (x : Action α)
    (y : Reference.Act β) : Prop :=
  Echoes (fun a n b s => n = m ∧ s = r ∧ R a b) (x m) (y r)

/-- The same answer, and a machine that mirrors the other. -/
def Tracks (a : α) (m : Machine) (b : α) (r : Reference) : Prop := b = a ∧ ∃ π, Mirrors π m r

/-! ### Sequences -/

/-- Sequences echo when their parts do. -/
theorem Echoes.bind {R : α → Machine → β → Reference → Prop}
    {S : γ → Machine → δ → Reference → Prop}
    {x : Action α} {y : Reference.Act β} {f : α → Action γ} {k : β → Reference.Act δ}
    (first : Echoes R (x m) (y r)) (rest : ∀ a n b s, R a n b s → Echoes S (f a n) (k b s)) :
    Echoes S ((x >>= f) m) ((y >>= k) r) := by
  simp only [Bind.bind, EStateM.bind]
  revert first
  generalize x m = left
  generalize y r = right
  intro first
  cases first with
  | ok h => exact rest _ _ _ _ h
  | raised h => exact .raised h
  | broken h => exact .broken h
  | fault => exact .fault

/-- More is known of the answers when the machine does not go wrong. -/
theorem Echoes.conj {R : α → Machine → β → Reference → Prop} {good : α → Machine → Prop}
    {x : EStateM.Result Interruption Machine α} {y : EStateM.Result Interruption Reference β}
    (echoes : Echoes R x y) (ends : Ends good x) :
    Echoes (fun a n b s => R a n b s ∧ good a n) x y := by
  cases echoes with
  | ok h =>
      cases ends with
      | ok hgood => exact .ok ⟨h, hgood⟩
  | raised h => exact .raised h
  | broken h => exact .broken h
  | fault => exact .fault

/-- An action that answers has a counterpart that answers. -/
theorem Echoes.right {R : α → Machine → β → Reference → Prop} {x : Action α} {a : α} {n : Machine}
    {y : EStateM.Result Interruption Reference β} (echoes : Echoes R (x m) y)
    (run : x m = .ok a n) : ∃ b s, y = .ok b s ∧ R a n b s := by
  rw [run] at echoes
  cases echoes with
  | ok h => exact ⟨_, _, rfl, h⟩

/-- Less may be said of the answers. -/
theorem Echoes.imp {R S : α → Machine → β → Reference → Prop}
    {x : EStateM.Result Interruption Machine α} {y : EStateM.Result Interruption Reference β}
    (echoes : Echoes R x y) (answers : ∀ a m b r, R a m b r → S a m b r) : Echoes S x y := by
  cases echoes with
  | ok h => exact .ok (answers _ _ _ _ h)
  | raised h => exact .raised h
  | broken h => exact .broken h
  | fault => exact .fault

/-- An action whose counterpart has answered. -/
theorem Echoes.bind_left {R : α → Machine → β → Reference → Prop}
    {S : γ → Machine → δ → Reference → Prop} {x : Action α} {b : β} {f : α → Action γ}
    {other : EStateM.Result Interruption Reference δ} (first : Echoes R (x m) (.ok b r))
    (rest : ∀ a n, R a n b r → Echoes S (f a n) other) : Echoes S ((x >>= f) m) other := by
  simp only [Bind.bind, EStateM.bind]
  revert first
  generalize x m = left
  intro first
  cases first with
  | ok h => exact rest _ _ h
  | broken h => exact .broken h
  | fault => exact .fault

/-- An action that follows one that only looks. -/
theorem Sees.bind {R : α → β → Prop} {S : γ → Machine → δ → Reference → Prop} {x : Action α}
    {y : Reference.Act β} {f : α → Action γ} {k : β → Reference.Act δ} (first : Sees m r R x y)
    (rest : ∀ a b, R a b → Echoes S (f a m) (k b r)) :
    Echoes S ((x >>= f) m) ((y >>= k) r) :=
  Echoes.bind first fun a _ b _ ⟨hn, hs, h⟩ => hn ▸ hs ▸ rest a b h

/-- An action that follows one that only looks and whose counterpart has answered. -/
theorem Sees.bind_left {R : α → β → Prop} {S : γ → Machine → δ → Reference → Prop} {x : Action α}
    {y : Reference.Act β} {f : α → Action γ} {b : β}
    {other : EStateM.Result Interruption Reference δ}
    (first : Sees m r R x y) (answer : y r = .ok b r) (rest : ∀ a, R a b → Echoes S (f a m) other) :
    Echoes S ((x >>= f) m) other := by
  rw [Sees, answer] at first
  exact first.bind_left fun a _ ⟨hn, _, h⟩ => hn ▸ rest a h

/-- Two actions that only answer. -/
theorem sees_pure {R : α → β → Prop} {a : α} {b : β} (related : R a b) :
    Sees m r R (pure a) (pure b) := .ok ⟨rfl, rfl, related⟩

/-- A machine that stops for good. -/
theorem stop_echoes {R : α → Machine → β → Reference → Prop} {f : Fault}
    {other : EStateM.Result Interruption Reference β} : Echoes R (stop f m) other := .fault

/-- What the machine finds is there for its counterpart. -/
theorem demand_sees {R : α → β → Prop} {o : Option α} {o' : Option β}
    (found : ∀ a, o = some a → ∃ b, o' = some b ∧ R a b) :
    Sees m r R (demand o) (Reference.demand o') := by
  cases o with
  | none => exact .fault
  | some a =>
      obtain ⟨b, rfl, h⟩ := found a rfl
      exact sees_pure h

/-- What the machine is told is there for its counterpart. -/
theorem ask_sees {R : α → β → Prop} {x : Machine → Except Fault α} {o : Option β}
    (found : ∀ a, x m = .ok a → ∃ b, o = some b ∧ R a b) :
    Sees m r R (ask x) (Reference.demand o) := by
  unfold Sees ask
  cases hx : x m with
  | error f => exact .fault
  | ok a =>
      obtain ⟨b, rfl, h⟩ := found a hx
      exact sees_pure h

/-! ### What is behind a handle -/

variable {limit : Nat} {entries : List (Nat × Handle)}

/-- The closure of a paired callable, and its function. -/
theorem Mirroring.closure (mirrors : Mirroring limit entries π m r) {id : Nat} {c : Closure}
    (callable : π.callable h id) (hc : m.heap.object? h = some (.closure c)) :
    ∃ k, r.closure? id = some k ∧
      m.heap.Holds (.object c.function) (.function k.template k.constants) ∧
      List.Forall₂ π.cell c.cells.toList k.captured.toList := by
  obtain ⟨o, k, ho, hk, hembodies⟩ := mirrors.callables h id callable
  obtain rfl := Option.some.inj (ho.symm.trans hc)
  cases hembodies with
  | @closure _ k hholds hcells =>
      refine ⟨k, ?_, hholds, hcells⟩
      rw [Reference.closure?, hk]

/-- The function of a paired closure is its template. -/
theorem holds_template {f : Function} {k : Reference.Closure}
    (holds : m.heap.Holds (.object h) (.function k.template k.constants))
    (hf : m.heap.object? h = some (.function f)) :
    ∃ name, k.template = f.template name ∧ m.heap.Named f.name name ∧
      m.heap.HoldsAll f.chunk.constants k.constants := by
  obtain ⟨name, constants, heq, hname, hall⟩ := (Heap.holds_function_iff hf).mp holds
  obtain ⟨ht, rfl⟩ := Constant.function.inj heq
  exact ⟨name, ht, hname, hall⟩

/-- The function of a paired call. -/
theorem Mirroring.function (mirrors : Mirroring limit entries π m r) {f : Function}
    (frame : Enacts m.heap π fr a) (hf : m.heap.function fr.function = .ok f) :
    ∃ k name, r.closure? a.callee = some k ∧ k.template = f.template name ∧
      m.heap.Named f.name name ∧ m.heap.HoldsAll f.chunk.constants k.constants := by
  obtain ⟨c, hc, heq⟩ := frame.entered
  obtain ⟨k, hk, hholds, -⟩ := mirrors.closure frame.callee hc
  obtain ⟨name, htemplate⟩ := holds_template hholds (heq ▸ Heap.function_eq_ok_iff.mp hf)
  exact ⟨k, name, hk, htemplate⟩

/-- The name of a function is read as its template has it. -/
theorem eq_of_named {heap : Heap} {name : Option Handle} {text read : Option String}
    (named : heap.Named name text) (found : name.mapM heap.string = .ok read) : read = text := by
  cases name with
  | none =>
      cases text with
      | none => exact (Except.ok.inj found).symm
      | some _ => exact named.elim
  | some g =>
      cases text with
      | none => exact named.elim
      | some text =>
          have hread : some <$> heap.string g = .ok read := found
          rw [Heap.string_eq_ok_iff.mpr named] at hread
          exact (Except.ok.inj hread).symm

/-- The line of a trace for a paired call. -/
theorem Mirroring.line (mirrors : Mirroring limit entries π m r) {t : TraceLine}
    (frame : Enacts m.heap π fr a) (found : traceLine m.heap fr = .ok t) : r.line a = some t := by
  unfold traceLine at found
  cases hf : m.heap.function fr.function with
  | error e =>
      rw [hf] at found
      cases found
  | ok f =>
      rw [hf] at found
      obtain ⟨k, name, hk, htemplate, hname, -⟩ := mirrors.function frame hf
      cases hread : f.name.mapM m.heap.string with
      | error e =>
          simp only [bind, Except.bind, hread] at found
          cases found
      | ok read =>
          obtain rfl := eq_of_named hname hread
          simp only [bind, Except.bind, hread] at found
          split at found
          · rename_i line hline
            cases found
            rw [Reference.line, hk, frame.ip]
            simp [htemplate, Function.template, hline]
          · cases found

/-- The trace of paired calls. -/
theorem Mirroring.trace (mirrors : Mirroring limit entries π m r) {ts : List TraceLine}
    (found : m.frames.mapM (traceLine m.heap) = .ok ts) : r.calls.mapM r.line = some ts := by
  have hall := mirrors.frames
  revert ts
  generalize m.frames = frames at hall
  generalize r.calls = calls at hall
  induction hall with
  | nil =>
      intro ts found
      cases found
      rfl
  | @cons fr a frames calls hframe _ ih =>
      intro ts found
      rw [List.mapM_cons] at found ⊢
      cases ht : traceLine m.heap fr with
      | error e =>
          rw [ht] at found
          cases found
      | ok t =>
          cases hrest : frames.mapM (traceLine m.heap) with
          | error e =>
              rw [ht, hrest] at found
              cases found
          | ok rest =>
              rw [ht, hrest] at found
              cases found
              rw [mirrors.line hframe ht, ih hrest]
              rfl

/-! ### Closing cells -/

/-- Closing the cells from a slot on. Closed cells have no variable below the slot, and values
denote what they did. -/
theorem Mirroring.closeFrom (mirrors : Mirrors π m r) (slot : Nat) :
    ∃ heap, closeFrom slot m =
        .ok () { m with heap, openCells := (m.openCells.splitFrom slot).2 } ∧
      ({ m with heap, openCells := (m.openCells.splitFrom slot).2 } : Machine).Mirroring
        (min slot m.stack.size) (m.openCells.splitFrom slot).2.entries π r ∧
      (∀ e ∈ (m.openCells.splitFrom slot).2.entries, e.1 < slot) ∧
      ∀ v d, Denotes m.heap π v d → Denotes heap π v d := by
  have closing : ∀ {n : Nat} {kept closing : List (Nat × Handle)} {m : Machine},
      Mirroring n (kept ++ closing) π m r → (∀ e ∈ closing, n ≤ e.1) →
      ∃ heap, (closing.forM fun e => Machine.closeCell e.1 e.2 : Action Unit) m =
          .ok () { m with heap } ∧ ({ m with heap } : Machine).Mirroring n kept π r ∧
        ∀ v d, Denotes m.heap π v d → Denotes heap π v d := by
    intro n kept closing
    induction closing with
    | nil =>
        intro m hm _
        exact ⟨m.heap, rfl, by simpa using hm, fun _ _ h => h⟩
    | cons e rest ih =>
        intro m hm hge
        obtain ⟨v, hv, hcell, hclosed⟩ := hm.closeCell (hge e (List.mem_cons_self ..))
        obtain ⟨heap, hrun, hdone, hsame⟩ := ih hclosed fun e he =>
          hge e (List.mem_cons_of_mem _ he)
        refine ⟨heap, ?_, hdone, fun v d hdenotes => hsame v d ?_⟩
        · have hslot : slotValue e.1 m = .ok v m := by
            rw [slotValue, bind_of_ok (get_apply m), hv]
            rfl
          have hfirst : Machine.closeCell e.1 e.2 m =
              .ok () { m with heap := m.heap.replace e.2 (.cell (.closed v)) } := by
            rw [Machine.closeCell, bind_of_ok hslot]
            simp only [onHeap, Heap.setCell, hcell]
          change (Machine.closeCell e.1 e.2 >>=
            fun _ => rest.forM fun e => Machine.closeCell e.1 e.2) m = _
          rw [bind_of_ok hfirst]
          exact hrun
        · exact hdenotes.replace (Heap.cell_eq_ok_iff.mp hcell) (.inl rfl)
  have hsplit := List.takeWhile_append_dropWhile (p := fun e : Nat × Handle => decide (e.1 < slot))
    (l := m.openCells.entries)
  have hlower := mirrors.lower (Nat.min_le_right slot m.stack.size)
  rw [← hsplit] at hlower
  have hge : ∀ e ∈ m.openCells.entries.dropWhile fun e => decide (e.1 < slot), slot ≤ e.1 :=
    fun e he => OpenCells.le_of_mem_dropWhile mirrors.sorted he
  obtain ⟨heap, hrun, hdone, hsame⟩ := closing
    (m := { m with openCells := (m.openCells.splitFrom slot).2 }) { hlower with }
    fun e he => Nat.le_trans (Nat.min_le_left _ _) (hge e he)
  refine ⟨heap, ?_, { hdone with }, fun e he => ?_, hsame⟩
  · rw [Machine.closeFrom, bind_of_ok (get_apply m)]
    exact hrun
  · simpa using List.mem_takeWhile_imp he

/-- Closing the cells from a slot on and shortening both stacks to that size. -/
theorem Mirroring.cutBack (mirrors : Mirrors π m r) (slot : Nat) :
    ∃ heap, Machine.closeFrom slot m =
        .ok () { m with heap, openCells := (m.openCells.splitFrom slot).2 } ∧
      Mirrors π { m with
          heap, openCells := (m.openCells.splitFrom slot).2, stack := m.stack.shrink slot }
        { r with stack := r.stack.shrink slot } ∧
      ∀ v d, Denotes m.heap π v d → Denotes heap π v d := by
  obtain ⟨heap, hrun, hclosed, hbelow, hsame⟩ := mirrors.closeFrom slot
  refine ⟨heap, hrun, ?_, hsame⟩
  have hcut := hclosed.shrink slot (Nat.le_refl _) hbelow
  unfold Mirrors
  rw [Array.size_shrink]
  exact hcut

/-! ### Runtime errors -/

/-- The machine and its counterpart after all calls have been ended. -/
theorem Mirroring.reset (mirrors : Mirrors π m r) :
    ∃ n, Machine.reset m = .ok () n ∧ Mirrors π n { r with stack := #[], calls := [] } := by
  obtain ⟨heap, hrun, hcut, -⟩ := mirrors.cutBack 0
  have hempty : ∀ {τ : Type} (xs : Array τ), xs.shrink 0 = #[] := fun xs =>
    Array.eq_empty_of_size_eq_zero (by simp)
  simp only [hempty] at hcut
  refine ⟨{ m with heap, openCells := (m.openCells.splitFrom 0).2, stack := #[], frames := [] }, ?_,
    { hcut with frames := .nil }⟩
  rw [Machine.reset, bind_of_ok hrun, modify_apply]

/-- Raising the same runtime error. -/
theorem raise_echoes (mirrors : Mirrors π m r) (cause : Cause)
    {R : α → Machine → β → Reference → Prop} :
    Echoes R (raise cause m) (Reference.raise cause r) := by
  unfold raise Reference.raise
  rw [bind_of_ok (get_apply r)]
  refine Sees.bind (R := fun a b => b = a) (ask_sees fun ts hts => ⟨ts, mirrors.trace hts, rfl⟩) ?_
  rintro ts _ rfl
  obtain ⟨n, hrun, hreset⟩ := mirrors.reset
  rw [bind_of_ok hrun, bind_of_ok (modify_apply _ _)]
  exact .raised hreset

/-- A machine that finds its code broken. -/
theorem raise_broken (mirrors : Mirrors π m r) {cause : Cause}
    (kind : cause.kind = .invalidBytecode) {R : α → Machine → β → Reference → Prop}
    {other : EStateM.Result Interruption Reference β} : Echoes R (raise cause m) other := by
  unfold raise
  cases hts : m.frames.mapM (traceLine m.heap) with
  | error f =>
      rw [bind_of_error (show ask _ m = .error (.fault f) m by rw [ask, hts])]
      exact .fault
  | ok ts =>
      obtain ⟨n, hrun, -⟩ := mirrors.reset
      rw [bind_of_ok (ask_of_ok hts), bind_of_ok hrun]
      exact .broken kind

/-! ### The stack -/

/-- Pushing a value and the datum that it denotes. -/
theorem push_echoes (mirrors : Mirrors π m r) (denotes : Denotes m.heap π v d) :
    Echoes (fun _ n _ s => n = { m with stack := m.stack.push v } ∧ Mirrors π n s ∧
      s.calls = r.calls ∧ s.callables = r.callables) (push v m) (Reference.push d r) := by
  unfold push Reference.push
  have hfull : r.stackMax ≤ r.stack.size ↔ m.stackMax ≤ m.stack.size := by
    rw [mirrors.size, mirrors.stackMax]
  by_cases full : m.stackMax ≤ m.stack.size
  · rw [if_pos full, if_pos (hfull.mpr full)]
    exact raise_echoes mirrors _
  · rw [if_neg full, if_neg (hfull.not.mpr full)]
    refine .ok ⟨rfl, ?_, rfl, rfl⟩
    unfold Mirrors
    rw [Array.size_push]
    exact mirrors.push denotes

/-- Pushing as the end of an instruction. -/
theorem push_tracks (mirrors : Mirrors π m r) (denotes : Denotes m.heap π v d) :
    Echoes Tracks (push v m) (Reference.push d r) :=
  (push_echoes mirrors denotes).imp fun _ _ _ _ h => ⟨rfl, π, h.2.1⟩

/-- A count of values on top of the stack for whose slots no cell is open. -/
def Spare (m : Machine) (count : Nat) : Prop :=
  ∀ e ∈ m.openCells.entries, e.1 + count < m.stack.size

/-- Shortening both stacks by values that no cell needs. -/
theorem Mirroring.truncate (mirrors : Mirrors π m r) (size : Nat)
    (below : ∀ e ∈ m.openCells.entries, e.1 < size) :
    Mirrors π { m with stack := m.stack.shrink size } { r with stack := r.stack.shrink size } := by
  unfold Mirrors
  rw [Array.size_shrink]
  exact mirrors.shrink size (Nat.min_le_right _ _) below

/-- Popping is shortening by one. -/
theorem pop_eq_shrink {τ : Type} (xs : Array τ) : xs.pop = xs.shrink (xs.size - 1) := by
  apply Array.toList_inj.mp
  simp [List.dropLast_eq_take]

/-- Popping a value that no cell needs. -/
theorem pop_echoes (mirrors : Mirrors π m r) {count : Nat} (spare : m.Spare (count + 1)) :
    Echoes (fun v n d s => Denotes n.heap π v d ∧ n = { m with stack := m.stack.pop } ∧
      s = { r with stack := r.stack.pop } ∧ Mirrors π n s ∧ n.Spare count)
      (pop m) (Reference.pop r) := by
  rw [pop_apply, Reference.pop, bind_of_ok (get_apply r), bind_of_ok (modify_apply _ _)]
  refine .ok ⟨?_, rfl, rfl, ?_, fun e he => ?_⟩
  · rw [Array.back?, Reference.slot?, mirrors.size]
    have hrel := mirrors.slot (m.stack.size - 1)
    generalize m.stack[m.stack.size - 1]? = top at hrel
    generalize r.stack[m.stack.size - 1]? = top' at hrel
    cases hrel with
    | none => exact .nil
    | some h =>
        obtain ⟨d, hd, hdenotes⟩ := h
        simpa [hd] using hdenotes
  · rw [pop_eq_shrink, pop_eq_shrink, mirrors.size]
    refine mirrors.truncate _ fun e he => ?_
    have := spare e he
    omega
  · have := spare e he
    simp only [Array.size_pop]
    omega

/-- Looking below the top of the stack. -/
theorem peek_sees (mirrors : Mirrors π m r) (depth : Nat) :
    Sees m r (Denotes m.heap π) (peek depth) (Reference.peek depth) := by
  unfold Sees peek Reference.peek
  rw [bind_of_ok (get_apply m), bind_of_ok (get_apply r), mirrors.size]
  split
  · refine demand_sees fun v hv => ?_
    have hrel := mirrors.slot (m.stack.size - 1 - depth)
    rw [hv] at hrel
    unfold Reference.slot?
    generalize r.stack[m.stack.size - 1 - depth]? = o at hrel
    cases hrel with
    | some h =>
        obtain ⟨d, hd, hdenotes⟩ := h
        exact ⟨d, hd, hdenotes⟩
  · exact stop_echoes

end Machine

end Lox
