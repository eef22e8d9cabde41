import Lox.Proofs.Code.Encoding
import Lox.Proofs.Lists

/-!
# How drafts grow

While a part of a program is compiled, a draft only grows: code, constants and captured
variables are added behind the old ones, locals are added in front of them, and a local that
was not captured may become captured. The drafts around it grow in the same way, since a name
in an inner function may make them capture variables.

A context describes a function at the end of its compilation. What has been found to refer to
a variable while a draft was smaller refers to it in every grown layer.

## Main definitions

* `Layer.Grows`, `Draft.Grows`.
* `Draft.layer` — the variables of a draft that may be used.

## Main results

* `Leads.mono` — a way to a captured variable stays.
-/

namespace Lox

/-! ### Layers -/

/-- A variable with the same name that may have become captured. -/
def Variable.Grows (v v' : Variable) : Prop :=
  v.name = v'.name ∧ (v.captured = true → v'.captured = true)

/-- The same locals, some of which may have become captured, and more captured variables. -/
structure Layer.Grows (L L' : Layer) : Prop where
  locals : List.Forall₂ Variable.Grows L.locals L'.locals
  captures : L.captures <+: L'.captures

section

variable {vs ws : List Variable} {L L' : Layer} {name : String} {slot : Nat}

/-- Every list of variables has grown from itself. -/
theorem Variable.grows_refl (vs : List Variable) : List.Forall₂ Variable.Grows vs vs :=
  List.forall₂_same.mpr fun _ _ => ⟨rfl, id⟩

/-- Growth in two steps is growth. -/
theorem Layer.Grows.trans {L'' : Layer} (first : L.Grows L') (second : L'.Grows L'') :
    L.Grows L'' :=
  ⟨forall₂_trans (fun _ _ _ h h' => ⟨h.1.trans h'.1, h'.2 ∘ h.2⟩) first.locals second.locals,
    first.captures.trans second.captures⟩

/-- Names keep their slots. -/
theorem slot?_eq_of_grows (grows : List.Forall₂ Variable.Grows vs ws) :
    slot? name ws = slot? name vs := by
  induction grows with
  | nil => rfl
  | cons hv hvs ih => simp only [slot?, hv.1, hvs.length_eq, ih]

/-- Shared slots stay shared. -/
theorem isShared_of_grows (grows : List.Forall₂ Variable.Grows vs ws)
    (shared : isShared slot vs = true) : isShared slot ws = true := by
  induction grows with
  | nil => exact shared
  | cons hv hvs ih =>
      simp only [isShared, ← hvs.length_eq] at shared ⊢
      split at shared
      · rename_i hslot
        rw [if_pos hslot]
        exact hv.2 shared
      · rename_i hslot
        rw [if_neg hslot]
        exact ih shared

/-- A way that is open stays open. -/
theorem Capture.IsOpen.mono {c : Capture} (isOpen : c.IsOpen L) (grows : L.Grows L') :
    c.IsOpen L' := by
  unfold Capture.IsOpen at isOpen ⊢
  split at isOpen
  · rename_i hlocal
    rw [if_pos hlocal]
    exact isShared_of_grows grows.locals isOpen
  · rename_i hlocal
    rw [if_neg hlocal]
    exact Nat.lt_of_lt_of_le isOpen grows.captures.length_le

/-- A way to a captured variable stays. -/
theorem Leads.mono {captures captures' : List Capture} {outer outer' : List Layer} {i : Nat}
    (leads : Leads name captures outer i) (more : captures <+: captures')
    (grows : List.Forall₂ Layer.Grows outer outer') : Leads name captures' outer' i := by
  induction leads generalizing captures' outer' with
  | here hc hlocal hslot hshared =>
      obtain ⟨L', outer', hL, -, rfl⟩ := List.forall₂_cons_left_iff.mp grows
      exact .here (getElem?_mono more hc) hlocal
        ((slot?_eq_of_grows hL.locals).trans hslot) (isShared_of_grows hL.locals hshared)
  | through hc hlocal hslot _ ih =>
      obtain ⟨L', outer', hL, hothers, rfl⟩ := List.forall₂_cons_left_iff.mp grows
      exact .through (getElem?_mono more hc) hlocal
        ((slot?_eq_of_grows hL.locals).trans hslot) (ih hL.captures hothers)

end

/-! ### Drafts -/

/-- What does not change about a local: its name and its depth. -/
def Local.shape (l : Local) : String × Option Nat := (l.name, l.depth)

/-- The same local, which may have become captured. -/
def Local.Grows (l l' : Local) : Prop :=
  l.shape = l'.shape ∧ (l.captured = true → l'.captured = true)

/-- The variable that a local is in the end. -/
def Local.variable (l : Local) : Variable := ⟨l.name, l.captured⟩

namespace Draft

/-- The locals that may be used: all but the one whose initializer is being compiled. -/
def ready (d : Draft) : List Local := d.locals.dropWhile (·.depth.isNone)

/-- The variables of a draft. -/
def layer (d : Draft) : Layer := ⟨d.ready.map Local.variable, d.captures.toList⟩

/-- A draft is **settled** when all its locals may be used and belong to open scopes. -/
def Settled (d : Draft) : Prop := ∀ l ∈ d.locals, ∃ k ≤ d.depth, l.depth = some k

/-- A draft that has grown by locals of given shapes, the newest first, and by given code. -/
structure Grows (d : Draft) (shapes : List (String × Option Nat)) (bytes : List UInt8)
    (d' : Draft) : Prop where
  name : d'.name = d.name
  isScript : d'.isScript = d.isScript
  arity : d'.arity = d.arity
  depth : d'.depth = d.depth
  code : d'.chunk.code.toList = d.chunk.code.toList ++ bytes
  constants : d.chunk.constants.toList <+: d'.chunk.constants.toList
  captures : d.captures.toList <+: d'.captures.toList
  locals : ∃ new old, d'.locals = new ++ old ∧ new.map Local.shape = shapes ∧
    List.Forall₂ Local.Grows d.locals old

variable {d d' d'' : Draft} {shapes more : List (String × Option Nat)} {bs ds : List UInt8}

/-- Locals have grown from themselves. -/
theorem grows_locals_refl (ls : List Local) : List.Forall₂ Local.Grows ls ls :=
  List.forall₂_same.mpr fun _ _ => ⟨rfl, id⟩

/-- Locals that have grown in two steps have grown. -/
theorem grows_locals_trans {ls ls' ls'' : List Local} (first : List.Forall₂ Local.Grows ls ls')
    (second : List.Forall₂ Local.Grows ls' ls'') : List.Forall₂ Local.Grows ls ls'' :=
  forall₂_trans (fun _ _ _ h h' => ⟨h.1.trans h'.1, h'.2 ∘ h.2⟩) first second

/-- Growing keeps the shapes of locals. -/
theorem shapes_eq_of_grows {ls ls' : List Local} (grows : List.Forall₂ Local.Grows ls ls') :
    ls'.map Local.shape = ls.map Local.shape := by
  induction grows with
  | nil => rfl
  | cons hl _ ih => simp only [List.map_cons, ← hl.1, ih]

/-- A draft has grown from itself by nothing. -/
theorem Grows.refl (d : Draft) : d.Grows [] [] d :=
  ⟨rfl, rfl, rfl, rfl, by simp, List.prefix_rfl, List.prefix_rfl,
    [], d.locals, rfl, rfl, grows_locals_refl _⟩

/-- Growth in two steps is growth. -/
theorem Grows.trans (first : d.Grows shapes bs d') (second : d'.Grows more ds d'') :
    d.Grows (more ++ shapes) (bs ++ ds) d'' := by
  obtain ⟨new, old, hlocals, hnew, hold⟩ := first.locals
  obtain ⟨new', old', hlocals', hnew', hold'⟩ := second.locals
  rw [hlocals] at hold'
  obtain ⟨grown, rest, rfl, hgrown, hrest⟩ := forall₂_append hold'
  refine ⟨second.name.trans first.name, second.isScript.trans first.isScript,
    second.arity.trans first.arity, second.depth.trans first.depth,
    by rw [second.code, first.code, List.append_assoc],
    first.constants.trans second.constants, first.captures.trans second.captures,
    new' ++ grown, rest, by rw [hlocals', List.append_assoc], ?_,
    grows_locals_trans hold hrest⟩
  rw [List.map_append, hnew', shapes_eq_of_grows hgrown, hnew]

/-- A draft that has grown by code alone keeps its locals. -/
theorem Grows.locals_nil (grows : d.Grows [] bs d') :
    List.Forall₂ Local.Grows d.locals d'.locals := by
  obtain ⟨new, old, hlocals, hnew, hold⟩ := grows.locals
  obtain rfl := List.map_eq_nil_iff.mp hnew
  rwa [hlocals, List.nil_append]

/-- The shapes of the locals of a grown draft. -/
theorem Grows.shapes_eq (grows : d.Grows shapes bs d') :
    d'.locals.map Local.shape = shapes ++ d.locals.map Local.shape := by
  obtain ⟨new, old, hlocals, hnew, hold⟩ := grows.locals
  rw [hlocals, List.map_append, hnew, shapes_eq_of_grows hold]

/-- Being settled depends on the shapes of the locals only. -/
theorem settled_iff : d.Settled ↔ ∀ s ∈ d.locals.map Local.shape, ∃ k ≤ d.depth, s.2 = some k := by
  simp only [Settled, List.forall_mem_map, Local.shape]

/-- A settled draft that has grown by locals that may be used is settled. -/
theorem Grows.settled (grows : d.Grows shapes bs d') (settled : d.Settled)
    (used : ∀ s ∈ shapes, ∃ k ≤ d.depth, s.2 = some k) : d'.Settled := by
  rw [settled_iff, grows.depth, grows.shapes_eq]
  intro s hs
  rcases List.mem_append.mp hs with hs | hs
  · exact used s hs
  · exact settled_iff.mp settled s hs

/-- Nothing is left out of locals that may all be used. -/
theorem dropWhile_of_used {ls : List Local} (used : ∀ l ∈ ls, l.depth ≠ none) :
    ls.dropWhile (·.depth.isNone) = ls := by
  cases ls with
  | nil => rfl
  | cons l older =>
      have := used l (by simp)
      exact List.dropWhile_cons_of_neg (by simpa using this)

/-- In a settled draft all locals may be used. -/
theorem Settled.ready_eq (settled : d.Settled) : d.ready = d.locals :=
  dropWhile_of_used fun l hl => by
    obtain ⟨k, -, hk⟩ := settled l hl
    simp [hk]

/-- The locals that may be used grow with the draft. -/
theorem ready_grows {ls ls' : List Local} (grows : List.Forall₂ Local.Grows ls ls') :
    List.Forall₂ Local.Grows (ls.dropWhile (·.depth.isNone))
      (ls'.dropWhile (·.depth.isNone)) := by
  induction grows with
  | nil => exact .nil
  | @cons l l' ls ls' hl hls ih =>
      have hdepth : l'.depth = l.depth := (congrArg Prod.snd hl.1).symm
      cases hd : l.depth <;> simp [hdepth, hd, ih, hl, hls]

/-- Variables grow with their locals. -/
theorem variables_grow {ls ls' : List Local} (grows : List.Forall₂ Local.Grows ls ls') :
    List.Forall₂ Variable.Grows (ls.map Local.variable) (ls'.map Local.variable) := by
  rw [List.forall₂_map_left_iff, List.forall₂_map_right_iff]
  exact grows.imp fun _ _ h => ⟨congrArg Prod.fst h.1, h.2⟩

/-- The layer of a draft grows when code alone is added. -/
theorem Grows.layer (grows : d.Grows [] bs d') : d.layer.Grows d'.layer :=
  ⟨variables_grow (ready_grows grows.locals_nil), grows.captures⟩

/-! ### Handles -/

/-- The handles of a draft are its name and its constants. -/
theorem mem_handles {h : Handle} :
    h ∈ d.handles ↔ d.name = some h ∨ .object h ∈ d.chunk.constants.toList := by
  simp only [handles, List.mem_append, Heap.mem_filterMap_handle?, Option.mem_toList]

/-- A draft that has grown has all its handles. -/
theorem Grows.handles (grows : d.Grows shapes bs d') {h : Handle} (mem : h ∈ d.handles) :
    h ∈ d'.handles := by
  rw [mem_handles] at mem ⊢
  rw [grows.name]
  exact mem.imp_right fun hmem => grows.constants.mem hmem

end Draft

/-! ### Drafts around -/

/-- The drafts around a growing draft grow by captures alone. -/
abbrev GrowAround (outer outer' : List Draft) : Prop :=
  List.Forall₂ (fun d d' => Draft.Grows d [] [] d') outer outer'

section

variable {outer outer' outer'' : List Draft}

/-- Drafts around have grown from themselves by nothing. -/
theorem GrowAround.refl (outer : List Draft) : GrowAround outer outer :=
  List.forall₂_same.mpr fun d _ => .refl d

/-- Growth in two steps is growth. -/
theorem GrowAround.trans (first : GrowAround outer outer') (second : GrowAround outer' outer'') :
    GrowAround outer outer'' :=
  forall₂_trans (fun _ _ _ h h' => h.trans h') first second

/-- Drafts around that have grown have all their handles. -/
theorem GrowAround.handles (grows : GrowAround outer outer') {d : Draft} {h : Handle}
    (hd : d ∈ outer) (mem : h ∈ d.handles) : ∃ d' ∈ outer', h ∈ d'.handles := by
  induction grows with
  | nil => cases hd
  | cons hgrows _ ih =>
      rcases List.mem_cons.mp hd with rfl | hd
      · exact ⟨_, by simp, hgrows.handles mem⟩
      · obtain ⟨d', hd', hmem⟩ := ih hd
        exact ⟨d', by simp [hd'], hmem⟩

/-- The layers around grow with the drafts. -/
theorem GrowAround.layers (grows : GrowAround outer outer') :
    List.Forall₂ Layer.Grows (outer.map Draft.layer) (outer'.map Draft.layer) := by
  rw [List.forall₂_map_left_iff, List.forall₂_map_right_iff]
  exact grows.imp fun _ _ h => h.layer

end

end Lox
