import Lox.Proofs.Compile.Growth

/-!
# What a step of the compiler does

A step that reports nothing consumes some tokens, writes some code and leaves the compiler in
order. `Emits` says so in one relation that composes, and it is the only thing that is ever
said of two successive states.

The code that a step writes is described for every context that *suits* the state after it:
such a context knows at least the constants, the captured variables and the locals of that
state. A context that suits a state suits all earlier states of the same scope, so the
descriptions of the steps of a program can be put together at its end.

## Main definitions

* `Compiler.InOrder` — the invariant of the compiler.
* `Compiler.Quiet` — nothing has been reported.
* `Compiler.Emits` — tokens consumed and code written between two states.
* `Context.Suits` — the context of a function from a state of its compilation on.
-/

namespace Lox

/-! ### The invariant -/

/-- The functions that are open at one time: what each of them captures is open in the next
one, and the last of them is the script. -/
def Linked : List Draft → Prop
  | [] => True
  | [script] => script.captures = #[] ∧ script.isScript = true
  | d :: outer :: others =>
    (∀ c ∈ d.captures.toList, c.IsOpen outer.layer) ∧ d.isScript = false ∧
      Linked (outer :: others)

/-- The links between drafts do not depend on the locals of the innermost one. -/
theorem Linked.congr {d d' : Draft} {outer : List Draft} (linked : Linked (d :: outer))
    (captures : d'.captures = d.captures) (isScript : d'.isScript = d.isScript) :
    Linked (d' :: outer) := by
  cases outer with
  | nil => simpa [Linked, captures, isScript] using linked
  | cons o outer => simpa [Linked, captures, isScript] using linked

/-- The invariant of a single draft. -/
structure Draft.InOrder (heap : Heap) (d : Draft) : Prop where
  lines : d.chunk.lines.size = d.chunk.code.size
  constants : ∃ constants, heap.HoldsAll d.chunk.constants constants ∧
    ∀ k ∈ constants, k.Compiled
  name : ∃ text, heap.Named d.name text
  locals : d.locals.length ≤ Draft.maxLocals
  captures : d.captures.size ≤ Draft.maxCaptures
  distinct : d.captures.toList.Nodup

namespace Compiler

/-- All drafts, innermost first. -/
def drafts (c : Compiler) : List Draft := c.draft :: c.enclosing

/-- The innermost draft is one of all. -/
theorem draft_mem_drafts (c : Compiler) : c.draft ∈ c.drafts := List.mem_cons_self ..

/-- What the compiler keeps alive. -/
def rooted (c : Compiler) : List Handle := roots c.held c.draft c.enclosing

/-- The tokens not yet consumed, up to the end of input. -/
def ahead (c : Compiler) : List Token :=
  if c.current.kind = .endOfInput then [] else c.current :: c.tokens.pending

/-- The input ends, and it ends once. -/
structure Fed (c : Compiler) : Prop where
  final : c.tokens.final.kind = .endOfInput
  pending : ∀ t ∈ c.tokens.pending, t.kind ≠ .endOfInput
  drained : c.current.kind = .endOfInput → c.tokens.pending = []

/-- Only the tokens matter for the end of the input. -/
theorem Fed.congr {c c' : Compiler} (fed : c.Fed) (tokens : c'.tokens = c.tokens)
    (current : c'.current = c.current) : c'.Fed :=
  ⟨tokens ▸ fed.final, tokens ▸ fed.pending, by rw [tokens, current]; exact fed.drained⟩

/-- The invariant of the compiler. -/
structure InOrder (c : Compiler) : Prop where
  fed : c.Fed
  valid : c.heap.Valid
  live : ∀ h ∈ c.rooted, c.heap.Live h
  drafts : ∀ d ∈ c.drafts, d.InOrder c.heap
  linked : Linked c.drafts

/-- Nothing has been reported. -/
structure Quiet (c : Compiler) : Prop where
  alarm : c.alarm = none
  diagnostics : c.diagnostics = #[]

variable {c c' c'' : Compiler} {ts us : List Token} {bs ds : List UInt8}
  {shapes more : List (String × Option Nat)}

/-- Only what the drafts hold matters for the roots. -/
theorem mem_rooted {h : Handle} :
    h ∈ c.rooted ↔ h ∈ c.held ∨ ∃ d ∈ c.drafts, h ∈ d.handles := by
  simp only [rooted, roots, List.mem_append, List.mem_flatMap, drafts]

/-! ### Emission -/

/-- Between two states tokens were consumed and code was written, and locals were declared. -/
structure Emits (c : Compiler) (ts : List Token) (bytes : List UInt8)
    (shapes : List (String × Option Nat)) (c' : Compiler) : Prop where
  ahead : c.ahead = ts ++ c'.ahead
  still : ts = [] → c'.current = c.current ∧ c'.previous = c.previous
  draft : c.draft.Grows shapes bytes c'.draft
  enclosing : GrowAround c.enclosing c'.enclosing
  held : c'.held = c.held
  keeps : c.heap.Keeps c.rooted c'.heap
  inOrder : c'.InOrder

/-- What a state keeps alive, every grown state keeps alive. -/
theorem rooted_of_grows (draft : c.draft.Grows shapes bs c'.draft)
    (enclosing : GrowAround c.enclosing c'.enclosing) (held : c'.held = c.held) :
    ∀ h ∈ c.rooted, h ∈ c'.rooted := by
  intro h hmem
  rw [mem_rooted] at hmem ⊢
  rw [held]
  refine hmem.imp_right ?_
  rintro ⟨d, hd, hmem⟩
  rcases List.mem_cons.mp hd with rfl | hd
  · exact ⟨c'.draft, by simp [drafts], draft.handles hmem⟩
  · obtain ⟨d', hd', hmem'⟩ := enclosing.handles hd hmem
    exact ⟨d', by simp [drafts, hd'], hmem'⟩

/-- What a state keeps alive, every later state keeps alive. -/
theorem Emits.rooted (emits : c.Emits ts bs shapes c') : ∀ h ∈ c.rooted, h ∈ c'.rooted :=
  rooted_of_grows emits.draft emits.enclosing emits.held

/-- A state in order emits nothing up to itself. -/
theorem Emits.refl (inOrder : c.InOrder) : c.Emits [] [] [] c :=
  ⟨rfl, fun _ => ⟨rfl, rfl⟩, .refl _, .refl _, rfl, .refl _ _, inOrder⟩

/-- What is emitted in two steps. -/
theorem Emits.trans (first : c.Emits ts bs shapes c') (second : c'.Emits us ds more c'') :
    c.Emits (ts ++ us) (bs ++ ds) (more ++ shapes) c'' := by
  refine ⟨by rw [first.ahead, second.ahead, List.append_assoc], fun hnil => ?_,
    first.draft.trans second.draft,
    first.enclosing.trans second.enclosing,
    second.held.trans first.held,
    first.keeps.trans second.keeps fun h hmem => .root (first.rooted h hmem), second.inOrder⟩
  obtain ⟨hts, hus⟩ := List.append_eq_nil_iff.mp hnil
  obtain ⟨hcurrent, hprevious⟩ := first.still hts
  obtain ⟨hcurrent', hprevious'⟩ := second.still hus
  exact ⟨hcurrent'.trans hcurrent, hprevious'.trans hprevious⟩

/-- The constants of a draft resolve in a later heap as they do now. -/
theorem holds_of_keeps (inOrder : c.InOrder) {heap : Heap} (keeps : c.heap.Keeps c.rooted heap)
    {d : Draft} (hd : d ∈ c.drafts) {v : Value} (hv : v ∈ d.chunk.constants.toList)
    {k : Constant} : heap.Holds v k ↔ c.heap.Holds v k := by
  have hreach : ∀ h, v = .object h → c.heap.Reaches c.rooted h := by
    rintro h rfl
    exact .root (mem_rooted.mpr (.inr ⟨d, hd, Draft.mem_handles.mpr (.inr hv)⟩))
  exact ⟨fun hk => hk.earlier keeps inOrder.valid.closed inOrder.live hreach,
    fun hk => hk.later keeps hreach⟩

end Compiler

/-! ### Contexts -/

variable {c c' : Compiler} {ts : List Token} {bs : List UInt8}
  {shapes : List (String × Option Nat)} {K : Context}

/-- A context **suits** a state when it knows the constants and the variables of the state and
of the drafts around it. -/
structure Context.Suits (K : Context) (c : Compiler) : Prop where
  constants : ∃ known, known <+: K.constants ∧ c.heap.HoldsAll c.draft.chunk.constants known
  layer : c.draft.layer.Grows K.layer
  outer : List.Forall₂ Layer.Grows (c.enclosing.map Draft.layer) K.outer
  inScope : K.inScope = decide (0 < c.draft.depth)

/-- Values that resolve one by one in one heap resolve one by one in another. -/
theorem Heap.HoldsAll.imp {heap heap' : Heap} {values : Array Value} {ks : List Constant}
    (holds : heap.HoldsAll values ks)
    (each : ∀ v ∈ values.toList, ∀ k, heap.Holds v k → heap'.Holds v k) :
    heap'.HoldsAll values ks := by
  unfold HoldsAll at holds ⊢
  generalize values.toList = vs at holds each ⊢
  induction holds with
  | nil => exact .nil
  | cons hv _ ih => exact .cons (each _ (by simp) _ hv) (ih fun v hv => each v (by simp [hv]))

/-- Fewer values resolve to fewer constants. -/
theorem Heap.HoldsAll.initial {heap : Heap} {values values' : Array Value} {ks : List Constant}
    (holds : heap.HoldsAll values' ks) (more : values.toList <+: values'.toList) :
    ∃ early, early <+: ks ∧ heap.HoldsAll values early := by
  obtain ⟨rest, hrest⟩ := more
  unfold HoldsAll at holds
  rw [← hrest] at holds
  have htake := List.forall₂_take values.toList.length holds
  rw [List.take_left] at htake
  exact ⟨_, List.take_prefix _ _, htake⟩

/-- A context suits an early state when it suits a late one and has the layer of the early. -/
theorem Context.Suits.before {K' : Context} (suits : K'.Suits c') (inOrder : c.InOrder)
    (emits : c.Emits ts bs shapes c') (constants : K.constants = K'.constants)
    (layer : c.draft.layer.Grows K.layer) (outer : K.outer = K'.outer)
    (inScope : K.inScope = K'.inScope) : K.Suits c := by
  obtain ⟨known, hknown, hholds⟩ := suits.constants
  obtain ⟨early, hearly, hholds'⟩ := hholds.initial emits.draft.constants
  refine ⟨⟨early, constants ▸ hearly.trans hknown, hholds'.imp fun v hv k hk => ?_⟩, layer, ?_, ?_⟩
  · exact (Compiler.holds_of_keeps inOrder emits.keeps c.draft_mem_drafts hv).mp hk
  · rw [outer]
    exact forall₂_trans (fun _ _ _ h h' => h.trans h') emits.enclosing.layers suits.outer
  · rw [inScope, suits.inScope, emits.draft.depth]

/-- A context that suits a state suits the states before it in the same scope. -/
theorem Context.Suits.earlier (suits : K.Suits c') (inOrder : c.InOrder)
    (emits : c.Emits ts bs [] c') : K.Suits c :=
  suits.before inOrder emits rfl (emits.draft.layer.trans suits.layer) rfl rfl

/-- A context inside the scope of further locals suits the state before their declaration when
the locals are left out of it. -/
theorem Context.Suits.outside {added : List Variable} (suits : (K.push added).Suits c')
    (inOrder : c.InOrder) (emits : c.Emits ts bs shapes c') (settled : c.draft.Settled)
    (settled' : c'.draft.Settled) (count : added.length = shapes.length) : K.Suits c := by
  obtain ⟨new, old, hlocals, hnew, hold⟩ := emits.draft.locals
  have hlength : added.length = new.length := by rw [count, ← hnew, List.length_map]
  have hgrows := suits.layer.locals
  simp only [Draft.layer, settled'.ready_eq, hlocals, List.map_append, push, Layer.push] at hgrows
  have hrest := List.forall₂_drop new.length hgrows
  rw [← hlength, List.drop_left, hlength, List.drop_left' (by simp)] at hrest
  refine suits.before inOrder emits rfl ⟨?_, ?_⟩ rfl rfl
  · simp only [Draft.layer, settled.ready_eq]
    exact forall₂_trans (fun _ _ _ h h' => ⟨h.1.trans h'.1, h'.2 ∘ h.2⟩)
      (Draft.variables_grow hold) hrest
  · exact emits.draft.captures.trans suits.layer.captures

end Lox
