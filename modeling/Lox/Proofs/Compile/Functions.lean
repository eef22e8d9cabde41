import Lox.Proofs.Compile.Statements

/-!
# Compiled functions

The body of a function is compiled in a draft of its own. When it is finished, the draft
becomes a function object, and the draft around it gets the instruction that makes a closure
of that object. All that remains of the inner compilation is the function among the constants
and what it made the functions around it capture.

Parameters are counted one by one while the draft is being compiled. The lemmas about them are
stated for a compiler whose draft has the final number of parameters from the start, since
nothing else ever looks at that number.

## Main results

* `parameters_spec` — the parameters of a function.
* `functionBody_spec` — the code that makes a closure of a compiled function.
* `funDeclaration_spec` — the declaration of a function.
-/

namespace Lox.Compiler

variable {c c' c'' b : Compiler} {u : Unit} {word : Token} {ts us : List Token}
  {bs ds : List UInt8} {shapes : List (String × Option Nat)} {K : Context}

/-! ### Parameters -/

/-- The compiler with another number of parameters in its draft. -/
def withArity (c : Compiler) (n : Nat) : Compiler :=
  { c with draft := { c.draft with arity := n } }

@[simp]
theorem withArity_withArity (c : Compiler) (n k : Nat) :
    (c.withArity n).withArity k = c.withArity k := rfl

/-- The invariant does not depend on the number of parameters. -/
theorem InOrder.withArity (inOrder : c.InOrder) (n : Nat) : (c.withArity n).InOrder :=
  inOrder.adjust rfl rfl rfl rfl (inOrder.drafts _ c.draft_mem_drafts).locals

/-- What is emitted does not depend on the number of parameters. -/
theorem Emits.withArity (emits : c.Emits ts bs shapes c') (n : Nat) :
    (c.withArity n).Emits ts bs shapes (c'.withArity n) := by
  obtain ⟨hahead, hstill, hdraft, henclosing, hheld, hkeeps, inOrder⟩ := emits
  refine ⟨hahead, hstill, ⟨hdraft.name, hdraft.isScript, rfl, hdraft.depth, hdraft.code,
    hdraft.constants, hdraft.captures, hdraft.locals⟩, henclosing, hheld, hkeeps,
    inOrder.withArity n⟩

/-- The shapes of the parameters of a function, the last one first. -/
def parameterShapes (names : List String) : List (String × Option Nat) :=
  (names.map fun name => (name, some 1)).reverse

/-- A parameter, up to the comma or the parenthesis behind it. -/
theorem parameter_spec {next : CompileM Unit}
    (run : (do if (← (get : CompileM Compiler)).draft.arity = Draft.maxArity then
                 complainAhead .tooManyParameters
               else modifyDraft fun d => { d with arity := d.arity + 1 }
               defineVariable (← variableName .parameterName)
               next) c = .ok u c') :
    ∃ mid, next mid = .ok u c' ∧ (mid.Quiet → c.Quiet ∧ (c.InOrder → c.draft.depth = 1 →
      c.current.kind = .identifier ∧ (c.withArity (c.draft.arity + 1)).Emits [c.current] []
        [(c.current.lexeme, some 1)] mid)) := by
  rw [bind_of_ok (get_apply c)] at run
  split at run
  · obtain ⟨_, c₁, hcomplain, run⟩ := bind_eq_ok_iff.mp run
    obtain ⟨i, c₂, hname, run⟩ := bind_eq_ok_iff.mp run
    obtain ⟨_, mid, hdefine, run⟩ := bind_eq_ok_iff.mp run
    refine ⟨mid, run, fun hquiet => ?_⟩
    have hquiet : c₂.Quiet := by
      rcases defineVariable_cases hdefine with ⟨-, hwrites⟩ | ⟨-, rfl⟩
      · exact (hwrites.silently hquiet).1
      · exact ⟨hquiet.alarm, hquiet.diagnostics⟩
    exact absurd (variableName_spec hname hquiet).1 (not_quiet_complainAhead hcomplain)
  · obtain ⟨_, c₁, hcount, run⟩ := bind_eq_ok_iff.mp run
    obtain rfl : c.withArity (c.draft.arity + 1) = c₁ := by cases hcount; rfl
    obtain ⟨i, c₂, hname, run⟩ := bind_eq_ok_iff.mp run
    obtain ⟨_, mid, hdefine, run⟩ := bind_eq_ok_iff.mp run
    refine ⟨mid, run, fun hquiet => ?_⟩
    rcases defineVariable_cases hdefine with ⟨hzero, hwrites⟩ | ⟨hpos, rfl⟩
    · obtain ⟨hquiet, -⟩ := hwrites.silently hquiet
      obtain ⟨hquiet, hfirst⟩ := variableName_spec hname hquiet
      refine ⟨⟨hquiet.alarm, hquiet.diagnostics⟩, fun inOrder hdepth => ?_⟩
      obtain ⟨-, -, ⟨habsurd, -⟩ | ⟨-, first⟩⟩ := hfirst (inOrder.withArity _)
      · exact absurd (hdepth.symm.trans habsurd) (by decide)
      · exact absurd (hzero.symm.trans (first.draft.depth.trans hdepth)) (by decide)
    · have hquiet : c₂.Quiet := ⟨hquiet.alarm, hquiet.diagnostics⟩
      obtain ⟨hquiet, hfirst⟩ := variableName_spec hname hquiet
      refine ⟨⟨hquiet.alarm, hquiet.diagnostics⟩, fun inOrder hdepth => ?_⟩
      obtain ⟨hkind, -, ⟨habsurd, -⟩ | ⟨-, first⟩⟩ := hfirst (inOrder.withArity _)
      · exact absurd (hdepth.symm.trans habsurd) (by decide)
      · have := first.initialized
        rw [show (c.withArity (c.draft.arity + 1)).draft.depth = 1 from hdepth] at this
        exact ⟨hkind, this⟩

/-- The parameters of a function, of which there is at least one. -/
theorem parameters_spec {steps : Nat} (run : parameters steps c = .ok u c') :
    c.Silently c' (c.draft.depth = 1 → ∃ ts name names, Grammar.Parameters ts (name :: names) ∧
      (c.withArity (c.draft.arity + (name :: names).length)).Emits ts []
        (parameterShapes (name :: names)) c') := by
  induction steps generalizing c with
  | zero => cases run
  | succ steps ih =>
      intro quiet
      obtain ⟨c₁, run, hparameter⟩ := parameter_spec run
      obtain ⟨more, c₂, haccept, hrest⟩ := bind_eq_ok_iff.mp run
      rcases accept_spec haccept with ⟨rfl, hkind, hadvance⟩ | ⟨rfl, -, rfl⟩
      · obtain ⟨hquiet, hothers⟩ := ih hrest quiet
        obtain ⟨hquiet, hcomma⟩ := advance_spec hadvance (by rw [hkind]; decide) hquiet
        obtain ⟨hquiet, hfirst⟩ := hparameter hquiet
        refine ⟨hquiet, fun inOrder hdepth => ?_⟩
        obtain ⟨hname, first⟩ := hfirst inOrder hdepth
        obtain ⟨comma, -⟩ := hcomma first.inOrder
        have front := first.trans comma
        obtain ⟨ts, name, names, hparsed, others⟩ :=
          hothers comma.inOrder (front.draft.depth.trans hdepth)
        refine ⟨_, c.current.lexeme, name :: names, .more hname hkind hparsed, ?_⟩
        have harity : c₂.draft.arity = c.draft.arity + 1 := front.draft.arity
        have hcount : c.draft.arity + (c.current.lexeme :: name :: names).length =
            c₂.draft.arity + (name :: names).length := by
          rw [harity, List.length_cons]
          omega
        rw [hcount]
        simpa [parameterShapes] using (front.withArity _).trans others
      · cases hrest
        obtain ⟨hquiet, hfirst⟩ := hparameter quiet
        refine ⟨hquiet, fun inOrder hdepth => ?_⟩
        obtain ⟨hname, first⟩ := hfirst inOrder hdepth
        exact ⟨_, _, [], .last hname, first⟩

/-- The parameters of a function, which may have none, and the parentheses around them. -/
theorem signature_spec {steps : Nat} {left right : Expectation} {rest : CompileM Unit}
    (run : (do expect .leftParen left
               if !(← check .rightParen) then parameters steps
               expect .rightParen right
               rest) c = .ok u c') :
    ∃ mid, rest mid = .ok u c' ∧ (mid.Quiet → c.Quiet ∧ (c.InOrder → c.draft.depth = 1 →
      ∃ l ps r names, l.kind = .leftParen ∧ Grammar.Parameters ps names ∧ r.kind = .rightParen ∧
        (c.withArity (c.draft.arity + names.length)).Emits (l :: ps ++ [r]) []
          (parameterShapes names) mid)) := by
  obtain ⟨_, c₁, hleft, run⟩ := bind_eq_ok_iff.mp run
  obtain ⟨empty, c₁', hcheck, run⟩ := bind_eq_ok_iff.mp run
  obtain ⟨rfl, rfl⟩ := check_spec hcheck
  split at run
  · obtain ⟨_, c₂, hparameters, run⟩ := bind_eq_ok_iff.mp run
    obtain ⟨_, mid, hright, run⟩ := bind_eq_ok_iff.mp run
    refine ⟨mid, run, fun hquiet => ?_⟩
    obtain ⟨hquiet, hthird⟩ := expect_spec hright (by decide) hquiet
    obtain ⟨hquiet, hsecond⟩ := parameters_spec hparameters hquiet
    obtain ⟨hquiet, hfirst⟩ := expect_spec hleft (by decide) hquiet
    refine ⟨hquiet, fun inOrder hdepth => ?_⟩
    obtain ⟨first, hl, -⟩ := hfirst inOrder
    obtain ⟨ps, name, names, hparsed, second⟩ :=
      hsecond first.inOrder (first.draft.depth.trans hdepth)
    obtain ⟨third, hr, -⟩ := hthird second.inOrder
    rw [show c₁'.draft.arity = c.draft.arity from first.draft.arity] at second
    refine ⟨_, ps, _, name :: names, hl, hparsed, hr, ?_⟩
    simpa using ((first.withArity _).trans second).trans third
  · obtain ⟨_, mid, hright, run⟩ := bind_eq_ok_iff.mp run
    refine ⟨mid, run, fun hquiet => ?_⟩
    obtain ⟨hquiet, hthird⟩ := expect_spec hright (by decide) hquiet
    obtain ⟨hquiet, hfirst⟩ := expect_spec hleft (by decide) hquiet
    refine ⟨hquiet, fun inOrder hdepth => ?_⟩
    obtain ⟨first, hl, -⟩ := hfirst inOrder
    obtain ⟨third, hr, -⟩ := hthird first.inOrder
    exact ⟨_, [], _, [], hl, .none, hr, first.trans third⟩

/-! ### Entering and leaving a function -/

/-- A state just after the draft of a function has been started. -/
def entered (c : Compiler) (name : Handle) : Compiler :=
  { c with
    draft := { name := some name, isScript := false }
    enclosing := c.draft :: c.enclosing }

/-- Starting a draft. -/
theorem enterFunction_apply (c : Compiler) (name : Handle) :
    enterFunction name c = .ok () (c.entered name) := rfl

/-- The roots of an entered function are those from before and the name. -/
theorem mem_rooted_entered {h g : Handle} :
    g ∈ (c.entered h).rooted ↔ g = h ∨ g ∈ c.rooted := by
  have hempty : ({ name := some h, isScript := false } : Draft).handles = [h] := rfl
  simp only [mem_rooted, drafts, entered, List.mem_cons, exists_eq_or_imp, hempty,
    List.not_mem_nil, or_false]
  exact or_left_comm

/-- Starting a draft with a live name leaves the compiler in order. -/
theorem InOrder.entered (inOrder : c.InOrder) {h : Handle} {text : String}
    (named : c.heap.object? h = some (.string text)) : (c.entered h).InOrder := by
  refine ⟨⟨inOrder.fed.final, inOrder.fed.pending, inOrder.fed.drained⟩, inOrder.valid,
    fun g hg => ?_, fun d hd => ?_, ⟨by simp [Compiler.entered], rfl, inOrder.linked⟩⟩
  · rcases mem_rooted_entered.mp hg with rfl | hg
    · exact ⟨_, named⟩
    · exact inOrder.live g hg
  · rcases List.mem_cons.mp hd with rfl | hd
    · exact ⟨rfl, ⟨[], .nil, nofun⟩, ⟨some text, named⟩, (by decide : 1 ≤ 256), Nat.zero_le _,
        List.nodup_nil⟩
    · exact inOrder.drafts d hd

/-- A state just after the draft of a function has been left. -/
def left (c : Compiler) : Compiler :=
  match c.enclosing with
  | [] => c
  | draft :: enclosing => { c with draft, enclosing }

/-- Going back to the draft around. -/
theorem leaveFunction_apply (c : Compiler) : leaveFunction c = .ok () c.left := rfl

/-- What is left of the compilation of a function in the functions around it. -/
theorem Emits.left {h : Handle} {n : Nat}
    (emits : ((c.entered h).opened.withArity n).Emits ts bs shapes c') (real : ts ≠ []) :
    ∃ d ds, c'.enclosing = d :: ds ∧ c'.left = { c' with draft := d, enclosing := ds } ∧
      c.Emits ts [] [] c'.left := by
  obtain ⟨d, ds, hd, hds, henclosing⟩ := List.forall₂_cons_left_iff.mp emits.enclosing
  have hleft : c'.left = { c' with draft := d, enclosing := ds } := by
    simp only [Compiler.left, henclosing]
  refine ⟨d, ds, henclosing, hleft, ?_⟩
  have inOrder := emits.inOrder
  have hdrafts : ∀ e ∈ d :: ds, e ∈ c'.drafts := fun e he => by
    rw [drafts, henclosing]
    exact List.mem_cons_of_mem _ he
  rw [hleft]
  refine ⟨emits.ahead, fun hnil => absurd hnil real, hd, hds, emits.held,
    emits.keeps.mono fun g hg => mem_rooted_entered.mpr (.inr hg), ?_⟩
  refine ⟨inOrder.fed.congr rfl rfl, inOrder.valid, fun g hg => inOrder.live g ?_,
    fun e he => inOrder.drafts e (hdrafts e he), ?_⟩
  · rw [mem_rooted] at hg ⊢
    exact hg.imp_right (Exists.imp fun e he => ⟨hdrafts e he.1, he.2⟩)
  · have hlinked := inOrder.linked
    rw [drafts, henclosing] at hlinked
    exact hlinked.2.2

/-- The end of a function: the implicit return is written and the function is allocated. -/
theorem finishFunction_spec {f : Handle} (run : finishFunction c = .ok f c') :
    c.Silently c' (c.Emits [] (OpCode.pushNil.plain ++ OpCode.giveBack.plain) [] c' ∧
      c'.heap.object? f = some (.function c'.draft.finish)) := by
  intro quiet
  obtain ⟨_, c₁, hreturn, run⟩ := bind_eq_ok_iff.mp run
  obtain ⟨_, c₀, hnil, hback⟩ := bind_eq_ok_iff.mp hreturn
  split at run
  · rename_i h heap hrun
    cases run
    have hquiet : c₁.Quiet := ⟨quiet.alarm, quiet.diagnostics⟩
    obtain ⟨hquiet, hfirst⟩ := ((emit_writes hnil).trans (emit_writes hback)).silently hquiet
    refine ⟨hquiet, fun inOrder => ?_⟩
    have first := hfirst inOrder
    have inOrder₁ := first.inOrder
    have hchildren : ∀ g, .object g ∈ (Object.function c₁.draft.finish).children →
        c₁.heap.Reaches c₁.rooted g := fun g hg => by
      refine .root (mem_rooted.mpr (.inr ⟨_, c₁.draft_mem_drafts, Draft.mem_handles.mpr ?_⟩))
      simpa [Object.children, Draft.finish] using hg
    rcases Heap.allocate_spec inOrder₁.valid.toSound inOrder₁.live _ with
      ⟨_, _, hrun', hallocated⟩ | ⟨_, herror, -⟩
    · cases hrun.symm.trans hrun'
      have keeps := hallocated.keeps
      have second : c₁.Emits [] [] [] { c₁ with heap } := by
        refine ⟨rfl, fun _ => ⟨rfl, rfl⟩, .refl _, .refl _, rfl, keeps, ?_⟩
        have hvalid := hallocated.valid inOrder₁.valid (fun _ => Object.noConfusion) inOrder₁.live
          hchildren
        refine inOrder₁.update hvalid keeps
          (draft_inOrder_of_keeps inOrder₁ keeps c₁.draft_mem_drafts) inOrder₁.linked
          fun g hg => ?_
        have hroot : g ∈ c₁.rooted := mem_rooted.mpr (.inr ⟨_, c₁.draft_mem_drafts, hg⟩)
        exact keeps.live (.root hroot) (inOrder₁.live g hroot)
      exact ⟨by simpa using first.trans second, hallocated.object?_self⟩
    · cases hrun.symm.trans herror
  · cases run

/-- The bytes behind the instruction that makes a closure. -/
theorem forM_captures_writes {captures : List Capture}
    (run : (captures.forM fun capture => do
      emitByte (if capture.isLocal then 1 else 0)
      emitByte capture.index) c = .ok u c') :
    c.Writes (captures.flatMap Capture.bytes) c' := by
  induction captures generalizing c with
  | nil =>
      cases run
      exact ⟨by simp, by simp, rfl⟩
  | cons capture captures ih =>
      obtain ⟨_, c₁, hfirst, hrest⟩ := bind_eq_ok_iff.mp run
      obtain ⟨_, c₀, hkind, hindex⟩ := bind_eq_ok_iff.mp hfirst
      exact ((emitByte_writes hkind).trans (emitByte_writes hindex)).trans (ih hrest)

/-! ### Function bodies -/

/-- A draft that has only the slot of the function itself is settled. -/
theorem settled_entered (c : Compiler) (h : Handle) (n : Nat) :
    ((c.entered h).opened.withArity n).draft.Settled := by
  intro l hl
  obtain rfl := List.mem_singleton.mp hl
  exact ⟨0, Nat.zero_le _, rfl⟩

/-- The shapes of parameters belong to the outermost scope of the function. -/
theorem depth_of_parameterShapes {names : List String} {s : String × Option Nat}
    (mem : s ∈ parameterShapes names) : s.2 = some 1 := by
  simp only [parameterShapes, List.mem_reverse, List.mem_map] at mem
  obtain ⟨name, -, rfl⟩ := mem
  rfl

/-- The draft of a finished function encodes its tree, wherever the functions around it have
layers that have grown from those at its end. -/
theorem body_encodes {h : Handle} {names : List String} {body : List Stmt}
    {constants : List Constant} {outer : List Layer} {name : Option String}
    (emits : ((c.entered h).opened.withArity names.length).Emits ts
      (bs ++ (OpCode.pushNil.plain ++ OpCode.giveBack.plain)) (shapes ++ parameterShapes names) c')
    (inner : ∀ s ∈ shapes, s.2 = some 1)
    (code : ∀ (K' : Context) (added : List Variable), added.length = shapes.length →
      (K'.push added).Suits c' → Encoding.Declarations K' body bs added)
    (holds : c'.heap.HoldsAll c'.draft.chunk.constants constants)
    (around : List.Forall₂ Layer.Grows (c'.enclosing.map Draft.layer) outer) (named : name ≠ none) :
    Encoding.Body outer names body c'.draft.captures.toList (c'.draft.finish.template name)
      constants := by
  obtain ⟨new, old, hlocals, hnew, hold⟩ := emits.draft.locals
  obtain ⟨body', own, rfl, hbody', hown⟩ := List.map_eq_append_iff.mp hnew
  have settled : c'.draft.Settled := by
    refine emits.draft.settled (settled_entered c h _) fun s hs => ⟨1, Nat.le_refl _, ?_⟩
    rcases List.mem_append.mp hs with hs | hs
    · exact inner s hs
    · exact depth_of_parameterShapes hs
  have hbody : Encoding.Declarations
      ⟨constants, ⟨(own ++ old).map Local.variable, c'.draft.captures.toList⟩, outer, true⟩ body bs
      (body'.map Local.variable) := by
    refine code _ _ ?_ ⟨⟨constants, List.prefix_rfl, holds⟩, ?_, around, ?_⟩
    · rw [List.length_map, ← hbody', List.length_map]
    · simp only [Draft.layer, settled.ready_eq, hlocals, Context.push, Layer.push,
        List.append_assoc, List.map_append]
      exact ⟨Variable.grows_refl _, List.prefix_rfl⟩
    · rw [emits.draft.depth]
      rfl
  have hdraft := emits.inOrder.drafts _ c'.draft_mem_drafts
  refine .intro named emits.draft.arity rfl (by simpa using hdraft.captures) hdraft.distinct ?_ ?_
    ?_ hbody
  · have := emits.draft.code
    simpa [Function.template, Draft.finish, Compiler.withArity, opened, Compiler.entered] using this
  · have := hdraft.lines
    simpa [Function.template, Draft.finish] using this
  · obtain ⟨l, rest, hl, hrest, rfl⟩ := List.forall₂_cons_left_iff.mp hold
    obtain rfl := List.forall₂_nil_left_iff.mp hrest
    have hl' : l.name = "" := (congrArg Prod.fst hl.1).symm
    have hnames : own.map Local.name = names.reverse := by
      have := congrArg (List.map Prod.fst) hown
      simpa [parameterShapes, Function.comp_def, Local.shape] using this
    simp [← hnames, hl', Local.variable, Function.comp_def]

/-- The object of a compiled function resolves to its template, under its name. -/
theorem finished_holds {h f : Handle} {name : String} {k : Constant} {n : Nat}
    (named : c.heap.object? h = some (.string name))
    (emits : ((c.entered h).opened.withArity n).Emits ts bs shapes c')
    (finished : c'.heap.object? f = some (.function c'.draft.finish))
    (holds : c'.heap.Holds (.object f) k) :
    ∃ constants, k = .function (c'.draft.finish.template (some name)) constants ∧
      c'.heap.HoldsAll c'.draft.chunk.constants constants := by
  obtain ⟨text, constants, rfl, hname, hall⟩ := (Heap.holds_function_iff finished).mp holds
  have hroot : h ∈ ((c.entered h).opened.withArity n).rooted :=
    mem_rooted_entered (c := c).mpr (.inl rfl)
  have hlater := emits.keeps h _ (.root hroot) named
  have hname' : c'.draft.finish.name = some h := emits.draft.name
  rw [hname'] at hname
  cases text with
  | none => exact hname.elim
  | some text =>
      cases hname.symm.trans hlater
      exact ⟨constants, rfl, hall⟩

/-- The instruction that makes a closure of a function that has just been compiled. -/
theorem makeClosure_spec {f : Handle} {captures : List Capture}
    (run : (do emitWith .closure (← makeConstant (.object f))
               captures.forM fun capture => do
                 emitByte (if capture.isLocal then 1 else 0)
                 emitByte capture.index) c = .ok u c') :
    c.Silently c' (∀ k, c.heap.Holds (.object f) k → k.Compiled → ∃ i : UInt8,
      c.Emits [] (OpCode.closure.short i ++ captures.flatMap Capture.bytes) [] c' ∧
      ∀ K : Context, K.Suits c' → K.Suits c ∧
        ∃ k, K.constants[i.toNat]? = some k ∧ c.heap.Holds (.object f) k) := by
  intro quiet
  obtain ⟨i, c₁, hmake, run⟩ := bind_eq_ok_iff.mp run
  obtain ⟨_, c₂, hclosure, hcaptures⟩ := bind_eq_ok_iff.mp run
  obtain ⟨hquiet, hsecond⟩ :=
    ((emitWith_writes hclosure).trans (forM_captures_writes hcaptures)).silently quiet
  obtain ⟨hquiet, hfirst⟩ := makeConstant_spec hmake hquiet
  refine ⟨hquiet, fun inOrder k holds compiled => ⟨i, ?_⟩⟩
  obtain ⟨first, hfound, hheap⟩ := hfirst inOrder k holds compiled
  have second := hsecond first.inOrder
  refine ⟨first.trans second, fun K suits => ⟨suits.earlier inOrder (first.trans second), ?_⟩⟩
  have := constant_of_suits (suits.earlier first.inOrder second) hfound
  rwa [hheap] at this

/-- Leaving a draft reports nothing. -/
theorem quiet_of_quiet_left (quiet : c.left.Quiet) : c.Quiet := by
  unfold Compiler.left at quiet
  split at quiet <;> exact ⟨quiet.alarm, quiet.diagnostics⟩

/-- The parameters and the body of a function. -/
theorem functionBody_spec {block : CompileM Unit} {steps : Nat} (blocks : ParsesBlocks block)
    (run : functionBody block steps c = .ok u c') :
    c.Silently c' (∃ l ps r brace ts close names body bs, l.kind = .leftParen ∧
      Grammar.Parameters ps names ∧ r.kind = .rightParen ∧ brace.kind = .leftBrace ∧
      Grammar.Declarations ts body ∧ close.kind = .rightBrace ∧
      c.Emits (l :: ps ++ r :: brace :: ts ++ [close]) bs [] c' ∧
      ∀ K : Context, K.Suits c' →
        Encoding.Function K c.previous.lexeme names body bs) := by
  intro quiet
  rw [functionBody, bind_of_ok (get_apply c)] at run
  obtain ⟨h, c₁, hintern, run⟩ := bind_eq_ok_iff.mp run
  rw [bind_of_ok (enterFunction_apply c₁ h), bind_of_ok (openScope_apply _)] at run
  obtain ⟨c₂, run, hsignature⟩ := signature_spec run
  obtain ⟨_, c₃, hbrace, run⟩ := bind_eq_ok_iff.mp run
  obtain ⟨_, c₄, hblock, run⟩ := bind_eq_ok_iff.mp run
  obtain ⟨f, c₅, hfinish, run⟩ := bind_eq_ok_iff.mp run
  rw [bind_of_ok (get_apply c₅), bind_of_ok (leaveFunction_apply c₅)] at run
  obtain ⟨hquiet, hsixth⟩ := makeClosure_spec run quiet
  obtain ⟨hquiet, hfifth⟩ := finishFunction_spec hfinish (quiet_of_quiet_left hquiet)
  obtain ⟨hquiet, hfourth⟩ := blocks _ _ _ hblock hquiet
  obtain ⟨hquiet, hthird⟩ := expect_spec hbrace (by decide) hquiet
  obtain ⟨hquiet, hsecond⟩ := hsignature hquiet
  obtain ⟨hquiet, hfirst⟩ := intern_spec hintern ⟨hquiet.alarm, hquiet.diagnostics⟩
  refine ⟨hquiet, fun inOrder => ?_⟩
  obtain ⟨first, named, -, -⟩ := hfirst inOrder
  have inOrder₁ := (first.inOrder.entered named).opened
  obtain ⟨l, ps, r, names, hl, hparameters, hr, second⟩ := hsecond inOrder₁ rfl
  rw [show (c₁.entered h).opened.draft.arity = 0 from rfl, Nat.zero_add] at second
  obtain ⟨third, hkind, -⟩ := hthird second.inOrder
  have hdepth : c₃.draft.depth = 1 := (second.trans third).draft.depth
  have settled : c₃.draft.Settled := by
    refine (second.trans third).draft.settled (settled_entered c₁ h _) fun s hs => ?_
    exact ⟨1, Nat.le_refl _, depth_of_parameterShapes hs⟩
  obtain ⟨mid, ⟨ts, body, bs, shapes, hparsed, inside, ⟨hinner, -⟩, hcode⟩, close, hclose⟩ :=
    hfourth third.inOrder settled
  obtain ⟨fifth, hobject⟩ := hfifth close.inOrder
  have rest := close.trans fifth
  have whole : ((c₁.entered h).opened.withArity names.length).Emits
      (l :: ps ++ r :: c₂.current :: ts ++ [mid.current])
      (bs ++ (OpCode.pushNil.plain ++ OpCode.giveBack.plain)) (shapes ++ parameterShapes names)
      c₅ := by
    simpa using ((second.trans third).trans inside).trans rest
  obtain ⟨d, ds, henclosing, hleft, outside⟩ := whole.left (by simp)
  have hheap : c₅.left.heap = c₅.heap := by rw [hleft]
  have hcode' : ∀ (K : Context) (added : List Variable), added.length = shapes.length →
      (K.push added).Suits c₅ → Encoding.Declarations K body bs added :=
        fun K added hlength suits =>
    hcode K added hlength (suits.earlier inside.inOrder (by simpa using rest))
  have hinner' : ∀ s ∈ shapes, s.2 = some 1 := fun s hs => by rw [hinner s hs, hdepth]
  -- the function is among the constants with the layers that the functions around it have now
  obtain ⟨-, ⟨constants, hall, hcompiled⟩, ⟨text, hname⟩, -⟩ :=
    whole.inOrder.drafts _ c₅.draft_mem_drafts
  have holds := (Heap.holds_function_iff hobject).mpr ⟨text, constants, rfl, hname, hall⟩
  have htext : text ≠ none := by
    rintro rfl
    rw [whole.draft.name] at hname
    exact hname
  have hbody : Encoding.Body _ names body _ (c₅.draft.finish.template text) constants :=
    body_encodes whole hinner' hcode' hall
      (List.forall₂_same.mpr fun L _ => ⟨Variable.grows_refl _, List.prefix_rfl⟩) htext
  obtain ⟨i, sixth, hsuits⟩ :=
    hsixth outside.inOrder _ (hheap ▸ holds) (.function hbody hcompiled)
  refine ⟨l, ps, r, c₂.current, ts, mid.current, names, body, _, hl, hparameters, hr, hkind,
    hparsed, hclose, by simpa using (first.trans outside).trans sixth, fun K suits => ?_⟩
  -- a later context knows more about the functions around
  obtain ⟨suits₅, k, hfound, hholds⟩ := hsuits K suits
  obtain ⟨constants', rfl, hall'⟩ := finished_holds named whole hobject (hheap ▸ hholds)
  have hlayer := suits₅.layer
  have houter := suits₅.outer
  rw [hleft] at hlayer houter
  refine .closure hfound rfl (fun c hc => ?_)
    (body_encodes whole hinner' hcode' hall' ?_ (Option.some_ne_none _))
  · have hlinked := whole.inOrder.linked
    rw [drafts, henclosing] at hlinked
    exact (hlinked.1 c hc).mono hlayer
  · rw [henclosing]
    exact .cons hlayer houter

/-- Making the newest local usable once more changes nothing. -/
theorem initialized_again {name : String} (emits : c.Emits ts bs [(name, some c.draft.depth)] c') :
    c'.initialized = c' := by
  obtain ⟨new, old, hsplit, hshapes, hold⟩ := emits.draft.locals
  obtain ⟨l, rfl, hl⟩ := List.map_eq_singleton_iff.mp hshapes
  have hdepth : l.depth = some c'.draft.depth := by
    rw [emits.draft.depth]
    exact congrArg Prod.snd hl
  unfold Compiler.initialized Draft.markNewest
  rw [hsplit, List.singleton_append]
  simp only [← hdepth]
  rw [show ({ l with depth := l.depth } :: old) = c'.draft.locals from hsplit.symm]

/-- The declaration of a function. -/
theorem funDeclaration_spec {block : CompileM Unit} {steps : Nat} (blocks : ParsesBlocks block)
    (run : funDeclaration block steps c = .ok u c') (kind : word.kind = .funWord) :
    c.Silently c' (b.draft.Settled → b.Emits [word] [] [] c → ∃ ts s bs shapes,
      Grammar.Declaration ts s ∧ b.Emits ts bs shapes c' ∧ b.Scoped shapes ∧
      ∀ (K : Context) (added : List Variable), added.length = shapes.length →
        (K.push added).Suits c' → Encoding.Declaration K s bs added) := by
  intro quiet
  obtain ⟨i, c₁, hname, run⟩ := bind_eq_ok_iff.mp run
  obtain ⟨_, c₂, hmark, run⟩ := bind_eq_ok_iff.mp run
  obtain ⟨_, c₃, hbody, hdefine⟩ := bind_eq_ok_iff.mp run
  have hquiet : c₃.Quiet := by
    rcases defineVariable_cases hdefine with ⟨-, hwrites⟩ | ⟨-, rfl⟩
    · exact (hwrites.silently quiet).1
    · exact ⟨quiet.alarm, quiet.diagnostics⟩
  obtain ⟨hquiet, hthird⟩ := functionBody_spec blocks hbody hquiet
  have hquiet : c₁.Quiet := by
    rcases markInitialized_cases hmark with ⟨-, rfl⟩ | ⟨-, rfl⟩
    · exact hquiet
    · exact ⟨hquiet.alarm, hquiet.diagnostics⟩
  obtain ⟨hquiet, hfirst⟩ := variableName_spec hname hquiet
  refine ⟨hquiet, fun inOrder settled before => ?_⟩
  obtain ⟨hkind, hprevious, ⟨hdepth, first, htext⟩ | ⟨hdepth, first⟩⟩ := hfirst inOrder
  · rcases markInitialized_cases hmark with ⟨-, rfl⟩ | ⟨hpos, -⟩
    · obtain ⟨l, ps, r, brace, ts, close, names, body, bs, hl, hps, hr, hbrace, hparsed, hclose,
        third, hcode⟩ := hthird first.inOrder
      rcases defineVariable_cases hdefine with ⟨-, hwrites⟩ | ⟨hpos, -⟩
      · have fourth := (hwrites.silently quiet).2 third.inOrder
        refine ⟨_, _, bs ++ OpCode.defineGlobal.short i, [],
          .function kind hkind hl hps hr hbrace hparsed hclose,
          by simpa using ((before.trans first).trans third).trans fourth,
          ⟨nofun, fun _ => rfl⟩, fun K added hlength suits => ?_⟩
        obtain rfl := List.eq_nil_of_length_eq_zero hlength
        rw [Context.push_nil] at suits
        have suits₃ := suits.earlier third.inOrder fourth
        have suits₁ := suits₃.earlier first.inOrder third
        have hfunction := hcode K suits₃
        rw [hprevious] at hfunction
        refine .function hfunction (.global ?_ (htext K suits₁))
        rw [(suits₁.earlier inOrder first).inScope, hdepth]
        rfl
      · exact absurd (third.draft.depth.trans (first.draft.depth.trans hdepth)) hpos.ne'
    · exact absurd (first.draft.depth.trans hdepth) hpos.ne'
  · rcases markInitialized_cases hmark with ⟨hzero, -⟩ | ⟨-, rfl⟩
    · exact absurd (first.draft.depth.symm.trans hzero) hdepth.ne'
    · have front : b.Emits [word, c.current] [] [(c.current.lexeme, none)] c₁ := by
        simpa using before.trans first
      have ready := front.initialized
      obtain ⟨l, ps, r, brace, ts, close, names, body, bs, hl, hps, hr, hbrace, hparsed, hclose,
        third, hcode⟩ := hthird ready.inOrder
      have whole : b.Emits (word :: c.current :: l :: ps ++ r :: brace :: ts ++ [close]) bs
          [(c.current.lexeme, some b.draft.depth)] c₃ := by
        simpa using ready.trans third
      have hdepth' : c.draft.depth = b.draft.depth := before.draft.depth
      rcases defineVariable_cases hdefine with ⟨hzero, -⟩ | ⟨-, rfl⟩
      · exact absurd (hdepth'.trans (whole.draft.depth.symm.trans hzero)) hdepth.ne'
      · rw [initialized_again whole]
        refine ⟨_, _, bs, _, .function kind hkind hl hps hr hbrace hparsed hclose, whole,
          ⟨by simp, fun hzero => absurd (hdepth'.trans hzero) hdepth.ne'⟩,
          fun K added hlength suits => ?_⟩
        have suits₂ := suits.earlier ready.inOrder third
        obtain ⟨suits₁, captured, rfl⟩ := suits_of_initialized settled front hlength suits₂
        have hscope : K.inScope = true := by
          rw [suits₁.inScope, first.draft.depth]
          simpa using hdepth
        have hfunction := hcode _ suits
        rw [show c₁.initialized.previous = c.current from hprevious] at hfunction
        simpa using Encoding.Declaration.function hfunction (.local captured hscope)

end Lox.Compiler
