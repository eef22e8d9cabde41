import Lox.Proofs.Compile.Resolution

/-!
# Scopes and declarations

A declaration inside a scope adds a local that is there but may not be used until its
initializer has been compiled. A declaration outside of all scopes writes an instruction that
defines a global. When a scope is closed, the locals that were declared in it leave the stack.

## Main results

* `closeScope_closes`, `Closes.emits` — the end of a block.
* `variableName_spec`, `Emits.initialized`, `defineVariable_cases` — the two ends of a declaration.
-/

namespace Lox.Compiler

variable {c c' c'' o : Compiler} {u : Unit} {ts us : List Token} {bs ds : List UInt8}
  {shapes : List (String × Option Nat)} {K : Context} {name : String}

/-- A change of the draft that keeps its handles, its code and its captures leaves the compiler
in order. -/
theorem InOrder.adjust (inOrder : c.InOrder) {d : Draft} (named : d.name = c.draft.name)
    (script : d.isScript = c.draft.isScript) (chunk : d.chunk = c.draft.chunk)
    (captures : d.captures = c.draft.captures) (locals : d.locals.length ≤ Draft.maxLocals) :
    InOrder { c with draft := d } := by
  have hdraft := inOrder.drafts _ c.draft_mem_drafts
  have hhandles : d.handles = c.draft.handles := by simp [Draft.handles, named, chunk]
  refine inOrder.update inOrder.valid (.refl _ _) ⟨?_, ?_, ?_, locals, ?_, ?_⟩
    (Linked.congr inOrder.linked captures script) fun h hh => ?_
  · rw [chunk]; exact hdraft.lines
  · rw [chunk]; exact hdraft.constants
  · rw [named]; exact hdraft.name
  · rw [captures]; exact hdraft.captures
  · rw [captures]; exact hdraft.distinct
  · exact inOrder.live h (mem_rooted.mpr (.inr ⟨_, c.draft_mem_drafts, hhandles ▸ hh⟩))

/-! ### Scopes -/

/-- A state just after a scope has been opened. -/
def opened (c : Compiler) : Compiler :=
  { c with draft := { c.draft with depth := c.draft.depth + 1 } }

/-- Opening a scope. -/
theorem openScope_apply (c : Compiler) : openScope c = .ok () c.opened := rfl

/-- Opening a scope leaves the compiler in order. -/
theorem InOrder.opened (inOrder : c.InOrder) : c.opened.InOrder :=
  inOrder.adjust rfl rfl rfl rfl (inOrder.drafts _ c.draft_mem_drafts).locals

/-- Locals that may be used in one scope may be used in a scope inside it. -/
theorem settled_opened (settled : c.draft.Settled) : c.opened.draft.Settled := fun l hl => by
  obtain ⟨k, hk, hdepth⟩ := settled l hl
  exact ⟨k, Nat.le_succ_of_le hk, hdepth⟩

/-- The locals of a scope are the newest ones. -/
theorem locals_of_scope {new old : List Local} {depth : Nat}
    (inner : ∀ l ∈ new, l.depth = some (depth + 1))
    (outer : ∀ l ∈ old, ∃ k ≤ depth, l.depth = some k) :
    (new ++ old).takeWhile (Draft.isWithin (depth + 1)) = new ∧
      (new ++ old).dropWhile (Draft.isWithin (depth + 1)) = old := by
  have hinner : ∀ l ∈ new, Draft.isWithin (depth + 1) l = true := fun l hl => by
    simp [Draft.isWithin, inner l hl]
  have houter : ∀ l ∈ old, Draft.isWithin (depth + 1) l = false := fun l hl => by
    obtain ⟨k, hk, hdepth⟩ := outer l hl
    simp only [Draft.isWithin, hdepth, decide_eq_false_iff_not]
    omega
  rw [List.takeWhile_append_of_pos hinner, List.dropWhile_append_of_pos hinner]
  cases old with
  | nil => simp
  | cons l old => simp [houter l (by simp)]

/-- Being declared in a scope, and being older than it, are matters of shape. -/
theorem scope_of_shapes {new old : List Local} {depth : Nat}
    (grown : new.map Local.shape = shapes) (inner : ∀ s ∈ shapes, s.2 = some (depth + 1))
    {d : Draft} (settled : d.Settled) (hdepth : d.depth = depth)
    (grows : List.Forall₂ Local.Grows d.locals old) :
    (∀ l ∈ new, l.depth = some (depth + 1)) ∧ ∀ l ∈ old, ∃ k ≤ depth, l.depth = some k := by
  refine ⟨fun l hl => inner l.shape (grown ▸ List.mem_map_of_mem hl), fun l hl => ?_⟩
  obtain ⟨l', hl', hgrows⟩ := exists_of_forall₂ grows hl
  obtain ⟨k, hk, heq⟩ := settled l' hl'
  exact ⟨k, hdepth ▸ hk, (congrArg Prod.snd hgrows.1).symm.trans heq⟩

/-- A state just after a scope has been closed: the locals of the scope are gone, and the code
that takes them off the stack has been written. -/
structure Closes (c : Compiler) (c' : Compiler) : Prop where
  code : c'.draft.chunk.code.toList = c.draft.chunk.code.toList ++
    (c.draft.locals.takeWhile (Draft.isWithin (c.draft.depth - 1 + 1))).flatMap
      fun l => (discard l).plain
  lines : c.draft.chunk.lines.size = c.draft.chunk.code.size →
    c'.draft.chunk.lines.size = c'.draft.chunk.code.size
  rest : c' = { c with draft := { c.draft with
    depth := c.draft.depth - 1
    locals := c.draft.locals.dropWhile (Draft.isWithin (c.draft.depth - 1 + 1))
    chunk := { c.draft.chunk with
      code := c'.draft.chunk.code, lines := c'.draft.chunk.lines } } }

/-- Closing a scope. -/
theorem closeScope_closes (run : closeScope c = .ok u c') : c.Closes c' := by
  obtain ⟨_, c₁, hdepth, run⟩ := bind_eq_ok_iff.mp run
  cases hdepth
  rw [bind_of_ok (get_apply _)] at run
  obtain ⟨_, c₂, hemits, hdrop⟩ := bind_eq_ok_iff.mp run
  cases hdrop
  have writes := forM_emit_writes hemits
  refine ⟨writes.code, fun hlines => ?_, ?_⟩
  · have hsize := writes.size
    have := writes.size_lines
    simp only at hsize this ⊢
    omega
  · simp only
    rw [writes.rest]

/-- Closing the scope of a block: what has been emitted since it was opened, and then the code
that takes its locals off the stack, newest first. -/
theorem Closes.emits (closes : c.Closes c') (settled : o.draft.Settled)
    (emits : o.opened.Emits ts bs shapes c)
    (inner : ∀ s ∈ shapes, s.2 = some (o.draft.depth + 1)) :
    ∃ closing, o.Emits ts (bs ++ closing) [] c' ∧
      ∀ K : Context, K.Suits c' → ∃ added, added.length = shapes.length ∧
        (K.inside.push added).Suits c ∧ closing = added.flatMap fun v => v.discard.plain := by
  obtain ⟨new, old, hsplit, hshapes, hold⟩ := emits.draft.locals
  have hdepth : c.draft.depth = o.draft.depth + 1 := emits.draft.depth
  have hdepth' : c.draft.depth - 1 = o.draft.depth := by omega
  obtain ⟨hnew, holder⟩ := scope_of_shapes hshapes inner settled rfl hold
  obtain ⟨htake, hdrop⟩ := locals_of_scope hnew holder
  have hrest := closes.rest
  have hcode := closes.code
  rw [hsplit, hdepth', htake] at hcode
  rw [hsplit, hdepth', hdrop] at hrest
  have hsettled : c.draft.Settled := emits.draft.settled (settled_opened settled) fun s hs =>
    ⟨_, Nat.le_refl _, inner s hs⟩
  refine ⟨_, ⟨?_, fun hnil => ?_, ⟨?_, ?_, ?_, ?_, ?_, ?_, ?_, ⟨[], old, ?_, rfl, hold⟩⟩, ?_, ?_,
    ?_, ?_⟩, fun K suits => ⟨new.map Local.variable, ?_, ?_, (List.flatMap_map ..).symm⟩⟩
  · rw [hrest]; exact emits.ahead
  · rw [hrest]; exact emits.still hnil
  · rw [hrest]; exact emits.draft.name
  · rw [hrest]; exact emits.draft.isScript
  · rw [hrest]; exact emits.draft.arity
  · rw [hrest]
  · rw [hcode, emits.draft.code, List.append_assoc]
    rfl
  · rw [hrest]; exact emits.draft.constants
  · rw [hrest]; exact emits.draft.captures
  · rw [hrest]; rfl
  · rw [hrest]; exact emits.enclosing
  · rw [hrest]; exact emits.held
  · rw [hrest]; exact emits.keeps
  · have inOrder := emits.inOrder
    have hdraft := inOrder.drafts _ c.draft_mem_drafts
    have hlength := hdraft.locals
    rw [hsplit, List.length_append] at hlength
    have hlines := closes.lines hdraft.lines
    rw [hrest]
    refine inOrder.update inOrder.valid (.refl _ _) ⟨hlines, hdraft.constants, hdraft.name, ?_,
      hdraft.captures, hdraft.distinct⟩ (Linked.congr inOrder.linked rfl rfl) fun h hh => ?_
    · simp only
      omega
    · exact inOrder.live h (mem_rooted.mpr (.inr ⟨_, c.draft_mem_drafts, hh⟩))
  · rw [List.length_map, ← hshapes, List.length_map]
  · rw [hrest] at suits
    refine ⟨suits.constants, ⟨?_, suits.layer.captures⟩, suits.outer, by simp [Context.inside,
      Context.push, hdepth]⟩
    have hsettled' : ∀ l ∈ old, l.depth ≠ none := fun l hl => by
      obtain ⟨k, -, hk⟩ := holder l hl
      simp [hk]
    have hgrows := suits.layer.locals
    simp only [Draft.layer, Draft.ready, Draft.dropWhile_of_used hsettled'] at hgrows
    simp only [Draft.layer, hsettled.ready_eq, hsplit, List.map_append, Context.push, Layer.push]
    exact List.rel_append (Variable.grows_refl _) hgrows

/-! ### Declarations -/

/-- Whether the compiler is in a scope. -/
theorem inScope_apply (c : Compiler) : inScope c = .ok (decide (0 < c.draft.depth)) c := rfl

/-- A state just after a local has been declared. It may not be used yet. -/
def declared (c : Compiler) (name : String) : Compiler :=
  { c with draft := { c.draft with locals := ⟨name, none, false⟩ :: c.draft.locals } }

/-- Adding a local. -/
theorem addLocal_cases (run : addLocal name c = .ok u c') (quiet : c'.Quiet) :
    c.draft.locals.length ≠ Draft.maxLocals ∧ c' = c.declared name := by
  unfold addLocal at run
  rw [bind_of_ok (get_apply c)] at run
  split at run
  · exact absurd quiet (not_quiet_complain run)
  · rename_i hroom
    cases run
    exact ⟨hroom, rfl⟩

/-- A declaration in a scope adds a local; otherwise there is nothing to declare. -/
theorem declareVariable_cases (run : declareVariable c = .ok u c') (quiet : c'.Quiet) :
    (c.draft.depth = 0 ∧ c' = c) ∨
      (0 < c.draft.depth ∧ c.draft.locals.length ≠ Draft.maxLocals ∧
        c' = c.declared c.previous.lexeme) := by
  unfold declareVariable at run
  rw [bind_of_ok (inScope_apply c)] at run
  by_cases hdepth : 0 < c.draft.depth
  · rw [if_pos (by simpa using hdepth), bind_of_ok (get_apply c)] at run
    split at run
    · obtain ⟨_, mid, hduplicate, hadd⟩ := bind_eq_ok_iff.mp run
      have hquiet : ¬ mid.Quiet := not_quiet_complain hduplicate
      rcases addLocal_cases hadd quiet with ⟨-, rfl⟩
      exact absurd ⟨quiet.alarm, quiet.diagnostics⟩ hquiet
    · rcases addLocal_cases run quiet with ⟨hroom, rfl⟩
      exact .inr ⟨hdepth, hroom, rfl⟩
  · rw [if_neg (by simpa using hdepth)] at run
    cases run
    exact .inl ⟨by omega, rfl⟩

/-- Declaring a local emits nothing but the local. -/
theorem emits_declared (inOrder : c.InOrder) (room : c.draft.locals.length ≠ Draft.maxLocals)
    (name : String) : c.Emits [] [] [(name, none)] (c.declared name) := by
  have hlocals := (inOrder.drafts _ c.draft_mem_drafts).locals
  refine ⟨rfl, fun _ => ⟨rfl, rfl⟩, ⟨rfl, rfl, rfl, rfl, by simp [declared], List.prefix_rfl,
    List.prefix_rfl, [⟨name, none, false⟩], _, rfl, rfl, Draft.grows_locals_refl _⟩, .refl _, rfl,
    .refl _ _, inOrder.adjust rfl rfl rfl rfl ?_⟩
  simp only [List.length_cons]
  omega

/-- The name of a variable: a local is declared in a scope, and a constant with the name is
added outside of all scopes. -/
theorem variableName_spec {what : Expectation} {i : UInt8}
    (run : variableName what c = .ok i c') :
    c.Silently c' (c.current.kind = .identifier ∧ c'.previous = c.current ∧
      ((c.draft.depth = 0 ∧ c.Emits [c.current] [] [] c' ∧
          ∀ K : Context, K.Suits c' → K.constants[i.toNat]? = some (.text c.current.lexeme)) ∨
        (0 < c.draft.depth ∧ c.Emits [c.current] [] [(c.current.lexeme, none)] c'))) := by
  intro quiet
  obtain ⟨_, c₁, hexpect, run⟩ := bind_eq_ok_iff.mp run
  obtain ⟨_, c₂, hdeclare, run⟩ := bind_eq_ok_iff.mp run
  rw [bind_of_ok (inScope_apply c₂)] at run
  by_cases hdepth : 0 < c₂.draft.depth
  · rw [if_pos (by simpa using hdepth)] at run
    cases run
    rcases declareVariable_cases hdeclare quiet with ⟨hzero, rfl⟩ | ⟨-, hroom, rfl⟩
    · omega
    · have hquiet : c₁.Quiet := ⟨quiet.alarm, quiet.diagnostics⟩
      obtain ⟨hquiet, hfirst⟩ := expect_spec hexpect (by decide) hquiet
      refine ⟨hquiet, fun inOrder => ?_⟩
      obtain ⟨first, hkind, hprevious⟩ := hfirst inOrder
      refine ⟨hkind, hprevious, .inr ⟨?_, ?_⟩⟩
      · rw [← first.draft.depth]
        exact hdepth
      · have := first.trans (emits_declared first.inOrder hroom c₁.previous.lexeme)
        rw [hprevious] at this ⊢
        exact this
  · rw [if_neg (by simpa using hdepth), bind_of_ok (get_apply c₂)] at run
    obtain ⟨hquiet, hsecond⟩ := nameConstant_spec run quiet
    rcases declareVariable_cases hdeclare hquiet with ⟨hzero, rfl⟩ | ⟨hpos, -, rfl⟩
    · obtain ⟨hquiet, hfirst⟩ := expect_spec hexpect (by decide) hquiet
      refine ⟨hquiet, fun inOrder => ?_⟩
      obtain ⟨first, hkind, hprevious⟩ := hfirst inOrder
      obtain ⟨second, htext⟩ := hsecond first.inOrder
      refine ⟨hkind, (second.still rfl).2.trans hprevious, .inl ⟨?_, first.trans second, ?_⟩⟩
      · rw [← first.draft.depth]
        exact hzero
      · rwa [hprevious] at htext
    · exact absurd hpos hdepth

/-- A state just after the newest local may be used. -/
def initialized (c : Compiler) : Compiler := { c with draft := c.draft.markNewest }

/-- Letting the newest local be used. -/
theorem markInitialized_cases (run : markInitialized c = .ok u c') :
    (c.draft.depth = 0 ∧ c' = c) ∨ (0 < c.draft.depth ∧ c' = c.initialized) := by
  unfold markInitialized at run
  rw [bind_of_ok (inScope_apply c)] at run
  by_cases hdepth : 0 < c.draft.depth
  · rw [if_pos (by simpa using hdepth)] at run
    cases run
    exact .inr ⟨hdepth, rfl⟩
  · rw [if_neg (by simpa using hdepth)] at run
    cases run
    exact .inl ⟨by omega, rfl⟩

/-- Once it may be used, a new local is a local of its scope. -/
theorem Emits.initialized (emits : c.Emits ts bs [(name, none)] c') :
    c.Emits ts bs [(name, some c.draft.depth)] c'.initialized := by
  obtain ⟨new, old, hsplit, hshapes, hold⟩ := emits.draft.locals
  obtain ⟨l, rfl, hl⟩ := List.map_eq_singleton_iff.mp hshapes
  have hmark : c'.draft.markNewest = { c'.draft with
      locals := [{ l with depth := some c'.draft.depth }] ++ old } := by
    simp [Draft.markNewest, hsplit]
  have hlocals := (emits.inOrder.drafts _ c'.draft_mem_drafts).locals
  rw [hsplit] at hlocals
  have hshape : ({ l with depth := some c'.draft.depth } : Local).shape =
      (name, some c.draft.depth) := by
    rw [← emits.draft.depth, ← show l.name = name from congrArg Prod.fst hl]
    rfl
  refine ⟨emits.ahead, emits.still, ?_, emits.enclosing, emits.held, emits.keeps, ?_⟩
  · simp only [Compiler.initialized, hmark]
    exact ⟨emits.draft.name, emits.draft.isScript, emits.draft.arity, emits.draft.depth,
      emits.draft.code, emits.draft.constants, emits.draft.captures, _, old, rfl,
      congrArg (fun s => [s]) hshape, hold⟩
  · simp only [Compiler.initialized, hmark]
    exact emits.inOrder.adjust rfl rfl rfl rfl hlocals

/-- A context inside the scope of a new local suits the state before the local could be used,
when the local is left out of it. -/
theorem suits_of_initialized {added : List Variable} (settled : c.draft.Settled)
    (emits : c.Emits ts bs [(name, none)] c') (count : added.length = 1)
    (suits : (K.push added).Suits c'.initialized) :
    K.Suits c' ∧ ∃ captured, added = [⟨name, captured⟩] := by
  obtain ⟨new, old, hsplit, hshapes, hold⟩ := emits.draft.locals
  obtain ⟨l, rfl, hl⟩ := List.map_eq_singleton_iff.mp hshapes
  obtain ⟨v, rfl⟩ := List.length_eq_one_iff.mp count
  have hused : ∀ l ∈ old, l.depth ≠ none := fun l hl => by
    obtain ⟨l', hl', hgrows⟩ := exists_of_forall₂ hold hl
    obtain ⟨k, -, hk⟩ := settled l' hl'
    rw [← show l'.depth = l.depth from congrArg Prod.snd hgrows.1, hk]
    simp
  have hready : c'.draft.ready = old := by
    unfold Draft.ready
    rw [hsplit, List.singleton_append,
      List.dropWhile_cons_of_pos (by simp [show l.depth = none from congrArg Prod.snd hl])]
    exact Draft.dropWhile_of_used hused
  have hready' : c'.initialized.draft.ready = { l with depth := some c'.draft.depth } :: old := by
    simp [Compiler.initialized, Draft.markNewest, hsplit, Draft.ready]
  have hchunk : c'.initialized.draft.chunk = c'.draft.chunk := by
    simp [Compiler.initialized, Draft.markNewest, hsplit]
  have hdepth : c'.initialized.draft.depth = c'.draft.depth := by
    simp [Compiler.initialized, Draft.markNewest, hsplit]
  have hcaptures : c'.initialized.draft.captures = c'.draft.captures := by
    simp [Compiler.initialized, Draft.markNewest, hsplit]
  obtain ⟨hconstants, hlayer, houter, hscope⟩ := suits
  have hgrows := hlayer.locals
  simp only [Draft.layer, hready', List.map_cons, Context.push, Layer.push,
    List.singleton_append, List.forall₂_cons] at hgrows
  refine ⟨⟨hchunk ▸ hconstants, ⟨?_, ?_⟩, houter, ?_⟩, v.captured, ?_⟩
  · simp only [Draft.layer, hready]
    exact hgrows.2
  · have := hlayer.captures
    simp only [Draft.layer, hcaptures] at this ⊢
    exact this
  · rw [← hdepth]
    exact hscope
  · have hname : v.name = name := hgrows.1.1.symm.trans (congrArg Prod.fst hl)
    rw [← hname]

/-- The end of a declaration outside of all scopes. -/
theorem defineVariable_cases {i : UInt8} (run : defineVariable i c = .ok u c') :
    (c.draft.depth = 0 ∧ c.Writes (OpCode.defineGlobal.short i) c') ∨
      (0 < c.draft.depth ∧ c' = c.initialized) := by
  unfold defineVariable at run
  rw [bind_of_ok (inScope_apply c)] at run
  by_cases hdepth : 0 < c.draft.depth
  · rw [if_pos (by simpa using hdepth)] at run
    rcases markInitialized_cases run with ⟨hzero, -⟩ | h
    · omega
    · exact .inr h
  · rw [if_neg (by simpa using hdepth)] at run
    exact .inl ⟨by omega, emitWith_writes run⟩

end Lox.Compiler
