import Lox.Proofs.Compile.Abreast.Scopes
import Lox.Proofs.Compile.Functions

/-!
# Compilers that keep abreast: functions

The draft of a function has the same code and the same constants in both compilers, up to source
lines: nothing stands in front of them. When the function is finished it becomes a constant of the
draft around, where something may stand in front.

## Main definitions

* `functionInside`, `functionOutside` — what is compiled in the draft of a function, and what comes
  after.

## Main results

* `functionBody_eq` — the two parts of the compilation of a function.
* `functionBody_pace` — functions.
-/

namespace Lox.Compiler

/-! ### Two parts -/

/-- The parameters and the body of a function. -/
def functionInside (block : CompileM Unit) (steps : Nat) : CompileM Unit := do
  openScope
  expect .leftParen .parenAfterFunctionName
  if !(← check .rightParen) then parameters steps
  expect .rightParen .parenAfterParameters
  expect .leftBrace .braceBeforeBody
  block

/-- The end of a function, and the instruction that makes a closure of it. -/
def functionOutside : CompileM Unit := do
  let function ← finishFunction
  let captures := (← get).draft.captures
  leaveFunction
  emitWith .closure (← makeConstant (.object function))
  captures.toList.forM fun capture => do
    emitByte (if capture.isLocal then 1 else 0)
    emitByte capture.index

/-- A function is compiled in two parts. -/
theorem functionBody_eq (block : CompileM Unit) (steps : Nat) :
    functionBody block steps = (do
      enterFunction (← intern (← get).previous.lexeme)
      functionInside block steps
      functionOutside) := by
  unfold functionBody functionInside functionOutside
  simp only [bind_assoc]
  congr 1
  funext c
  congr 1
  funext name
  congr 1
  funext _
  congr 1
  funext _
  congr 1
  funext _
  congr 1
  funext empty
  cases empty <;> simp [bind_assoc]

variable {S : Setting} {around : List (Spot × Sheet)} {p p' : Spot} {s s' : Sheet} {k : Nat}
  {c c' d d' : Compiler} {closes : Bool} {pre : Sheet.Fact} {h h' : Handle} {text : String}

theorem functionOutside_reports : Reports true functionOutside :=
  .bind Reports.throughout.finishFunction fun _ => .read (fun _ _ => rfl) fun _ =>
    .bind Reports.throughout.leaveFunction fun _ =>
      .bind (Reports.throughout.makeConstant _) fun _ =>
      .bind (Reports.throughout.emitWith _ _) fun _ =>
        .forM (fun _ => .bind (Reports.throughout.emitByte _) fun _ =>
          Reports.throughout.emitByte _) _

/-! ### Inside -/

/-- Both compilers start the draft of a function. -/
theorem Abreast.entered (abreast : Abreast S around p s c d)
    (named : c.heap.object? h = some (.string text))
    (named' : d.heap.object? h' = some (.string text)) :
    Abreast S ((p, s) :: around) ⟨0, 1⟩ {} (c.entered h) (d.entered h') := by
  have hempty : Draft.Abreast {} ⟨0, 1⟩ {} c.heap d.heap { name := some h, isScript := false }
      { name := some h', isScript := false } :=
    { name := ⟨some text, named, named'⟩, isScript := rfl, arity := rfl, locals := rfl
      captures := rfl, depth := rfl, depth' := rfl, enough := Nat.le_refl _
      constants := .nil, constants' := ⟨[], .nil, .nil⟩, code := ⟨[], rfl, .nil⟩
      lines := .nil, lined := fun k hk => by cases hk
      callee := rfl, room := (by decide : 1 ≤ 256), proper := fun c hc => by cases hc
      endless := fun habsurd => by cases habsurd }
  have hlive : ∀ {heap : Heap} {g : Handle}, heap.object? g = some (.string text) →
      ∀ f ∈ ({ name := some g, isScript := false } : Draft).handles, heap.Live f :=
    fun hg f hf => by
      obtain rfl := List.mem_singleton.mp hf
      exact ⟨_, hg⟩
  exact abreast.redraft (.cons hempty rfl abreast.drafts)
    (List.forall_mem_cons.mpr ⟨hlive named, abreast.live⟩)
    (List.forall_mem_cons.mpr ⟨hlive named', abreast.live'⟩)

/-- Another parameter. -/
theorem count_pace :
    Pace S around p p closes pre
      (modifyDraft fun d => { d with arity := d.arity + 1 })
      (modifyDraft fun d => { d with arity := d.arity + 1 }) any :=
  ⟨Reports.throughout.edit _, Reports.throughout.edit _, fun s _ _ abreast _ =>
    have hdraft := abreast.draft
    .ok (abreast.adjust { hdraft with arity := congrArg (· + 1) hdraft.arity } rfl rfl rfl)
      (.refl s)
      trivial⟩

theorem parameters_pace (steps steps' : Nat) :
    Pace S around ⟨k, 1⟩ ⟨k, 1⟩ false pre (parameters steps) (parameters steps') any := by
  induction steps generalizing steps' pre with
  | zero => exact .throw_left Reports.throughout.parameters
  | succ steps ih =>
      cases steps' with
      | zero => exact .throw_right Reports.throughout.parameters
      | succ steps' =>
          have hrest : Pace S around ⟨k, 1⟩ ⟨k, 1⟩ false pre
              (do
                defineVariable (← variableName .parameterName)
                if ← accept .comma then parameters steps)
              (do
                defineVariable (← variableName .parameterName)
                if ← accept .comma then parameters steps') any :=
            (variableName_pace _).bind fun _ _ => Pace.next (defineVariable_pace fun _ h => h.2) <|
              (accept_pace _).agreed fun _ => .ite (fun _ => ih steps') fun _ =>
                .pure fun _ _ => trivial
          refine .read (fun c => ⟨?_, ?_⟩) (fun _ _ => ⟨rfl, rfl⟩) fun s c d abreast hpre => ?_
          · exact .ite (.bind (Reports.throughout.reportAhead _) fun _ => hrest.left)
              (.bind (Reports.throughout.edit _) fun _ => hrest.left)
          · exact .ite (.bind (Reports.throughout.reportAhead _) fun _ => hrest.right)
              (.bind (Reports.throughout.edit _) fun _ => hrest.right)
          · rw [abreast.draft.arity]
            exact (Pace.ite (fun _ => (complainAhead_pace _).next hrest)
              fun _ => count_pace.next hrest).meets s c d abreast hpre

theorem functionInside_pace {block block' : CompileM Unit}
    (body : Pace S around ⟨1, 1⟩ ⟨1, 1⟩ true pre block block' any) (steps steps' : Nat) :
    Pace S around ⟨0, 1⟩ ⟨1, 1⟩ true pre (functionInside block steps)
      (functionInside block' steps') any := by
  have hrest : Pace S around ⟨1, 1⟩ ⟨1, 1⟩ true pre
      (do
        expect .rightParen .parenAfterParameters
        expect .leftBrace .braceBeforeBody
        block)
      (do
        expect .rightParen .parenAfterParameters
        expect .leftBrace .braceBeforeBody
        block') any :=
    (expect_pace _ (by decide)).next ((expect_pace _ (by decide)).next body)
  have hhungry : Hungry (do
      expect .rightParen .parenAfterParameters
      expect .leftBrace .braceBeforeBody
      block) :=
    (expect_hungry _ (by decide)).bind fun _ => .bind (Reports.throughout.expect _ _) fun _ =>
      body.left
  refine openScope_pace.next ((expect_pace _ (by decide)).next ?_)
  refine (check_pace .rightParen).agreedInto (fun empty => ?_) fun empty => .ite ?_ fun _ => hrest
  · cases empty
    · exact .after Reports.throughout.parameters fun _ => hhungry
    · exact hhungry
  · exact fun _ => (parameters_pace _ _).nextInto hhungry hrest

/-! ### Outside -/

/-- What an allocation of a finished function gives. -/
theorem Tame.allocate (tame : c.Tame) {heap : Heap}
    (run : Heap.allocate (.function c.draft.finish) c.rooted c.heap = .ok h heap) :
    heap.Valid ∧ c.heap.Keeps c.rooted heap ∧
      heap.object? h = some (.function c.draft.finish) := by
  have hchildren : ∀ g, .object g ∈ (Object.function c.draft.finish).children →
      c.heap.Reaches c.rooted g := fun g hg => by
    refine .root (mem_rooted.mpr (.inr ⟨_, c.draft_mem_drafts, Draft.mem_handles.mpr ?_⟩))
    simpa [Object.children, Draft.finish] using hg
  rcases Heap.allocate_spec tame.valid.toSound tame.live _ with
    ⟨_, _, hrun, hallocated⟩ | ⟨_, herror, -⟩
  · cases run.symm.trans hrun
    exact ⟨hallocated.valid tame.valid (fun _ => Object.noConfusion) tame.live hchildren,
      hallocated.keeps, hallocated.object?_self⟩
  · cases run.symm.trans herror

/-- The end of the code of a function. -/
theorem finishFunction_cases (run : finishFunction c = .ok h c') :
    ∃ mid heap, emitReturn c = .ok () mid ∧ c' = { mid with heap } ∧
      Heap.allocate (.function mid.draft.finish) mid.rooted mid.heap = .ok h heap := by
  obtain ⟨_, mid, hreturn, run⟩ := bind_eq_ok_iff.mp run
  split at run
  · rename_i g heap hrun
    cases run
    exact ⟨mid, heap, hreturn, rfl, hrun⟩
  · cases run

theorem emitReturn_pace (closes : Bool) (pre : Sheet.Fact) (inside : around ≠ []) :
    Pace S around p p closes pre emitReturn emitReturn any :=
  (emit_pace rfl fun habsurd => by cases habsurd).next (emit_pace rfl fun _ => inside)

/-- Both compilers finish a function. -/
theorem Abreast.finished (abreast : Abreast S around p s c d) (inside : around ≠ [])
    (run : finishFunction c = .ok h c') (run' : finishFunction d = .ok h' d') (quiet : c'.Quiet)
    (quiet' : d'.Quiet) :
    ∃ s', Abreast S around p s' c' d' ∧ c'.heap.object? h = some (.function c'.draft.finish) ∧
      d'.heap.object? h' = some (.function d'.draft.finish) := by
  obtain ⟨mid, heap, hreturn, rfl, halloc⟩ := finishFunction_cases run
  obtain ⟨mid', heap', hreturn', rfl, halloc'⟩ := finishFunction_cases run'
  obtain ⟨s', -, habreast, -⟩ | ⟨hfalse, -⟩ := (emitReturn_pace true
    (.plain True) inside).meets s c d abreast trivial _ _ _ _ hreturn hreturn'
    ⟨quiet.alarm, quiet.diagnostics⟩ ⟨quiet'.alarm, quiet'.diagnostics⟩
  · obtain ⟨hvalid, hkeeps, hfound⟩ := habreast.tame.allocate halloc
    obtain ⟨hvalid', hkeeps', hfound'⟩ := habreast.tame'.allocate halloc'
    exact ⟨s', habreast.withHeap hvalid hkeeps hvalid' hkeeps', hfound, hfound'⟩
  · cases hfalse

/-- Going back to the draft around. -/
theorem left_eq {x : Draft} {xs : List Draft} (enclosing : c.enclosing = x :: xs) :
    c.left = { c with draft := x, enclosing := xs } := by
  simp only [Compiler.left, enclosing]

/-- Both compilers go back to the draft around. -/
theorem Abreast.left (abreast : Abreast S ((p, s) :: around) p' s' c d) :
    Abreast S around p s c.left d.left ∧ c.left.heap = c.heap ∧ d.left.heap = d.heap := by
  have henclosing := abreast.enclosing
  have hlive : ∀ e ∈ c.enclosing, ∀ h ∈ e.handles, c.heap.Live h := fun e he =>
    abreast.live e (List.mem_cons_of_mem _ he)
  have hlive' : ∀ e ∈ d.enclosing, ∀ h ∈ e.handles, d.heap.Live h := fun e he =>
    abreast.live' e (List.mem_cons_of_mem _ he)
  generalize hxs : c.enclosing = xs at henclosing hlive
  generalize hys : d.enclosing = ys at henclosing hlive'
  cases henclosing with
  | cons hdraft hscript hstacked =>
      rw [left_eq hxs, left_eq hys]
      exact ⟨abreast.redraft (.cons hdraft hscript hstacked) hlive hlive', rfl, rfl⟩

/-- Functions that are finished by both compilers differ in source lines only, and they have one
line for each instruction. -/
theorem Abreast.function (abreast : Abreast S ((p, s) :: around) p' s' c d)
    (found : c.heap.object? h = some (.function c.draft.finish))
    (found' : d.heap.object? h' = some (.function d.draft.finish)) :
    ∃ t t' ks ks', c.heap.Holds (.object h) (.function t ks) ∧
      d.heap.Holds (.object h') (.function t' ks') ∧
      (Constant.function t ks).Kin (.function t' ks') ∧ (Constant.function t ks).Lined ∧
      t.upvalueCount = c.draft.captures.size := by
  have hdraft := abreast.draft
  obtain ⟨text, hname, hname'⟩ := hdraft.name
  obtain ⟨ks, hconstants', hkin⟩ := hdraft.constants'
  obtain ⟨rest, hcode, hlaid⟩ := hdraft.code
  refine ⟨_, _, _, ks, (Heap.holds_function_iff found).mpr
    ⟨text, s'.constants, rfl, hname, hdraft.constants⟩,
    (Heap.holds_function_iff found').mpr ⟨text, ks, rfl, hname', hconstants'⟩,
    .function_of ?_ hkin, .function ⟨_, hlaid.alone, hdraft.lines⟩ hdraft.lined, rfl⟩
  have hsame : d.draft.chunk.code.toList = c.draft.chunk.code.toList := by
    rw [hcode]
    exact hlaid.eq_of_shift
  simp only [Template.Kin, Function.template, Draft.finish, hdraft.arity, hdraft.captures, hsame]

/-- Both compilers write the instruction that makes a closure. -/
theorem Abreast.closure (abreast : Abreast S around p s c d) {captures : List Capture}
    {t t' : Template} {ks ks' : List Constant} (holds : c.heap.Holds (.object h) (.function t ks))
    (holds' : d.heap.Holds (.object h') (.function t' ks'))
    (kin : (Constant.function t ks).Kin (.function t' ks')) (lined : (Constant.function t ks).Lined)
    (count : captures.length = t.upvalueCount) (proper : ∀ x ∈ captures, x.Proper) :
    Meets S around p closes any s
      ((do
        emitWith .closure (← Compiler.makeConstant (.object h))
        captures.forM fun capture => do
          emitByte (if capture.isLocal then 1 else 0)
          emitByte capture.index) c)
      ((do
        emitWith .closure (← Compiler.makeConstant (.object h'))
        captures.forM fun capture => do
          emitByte (if capture.isLocal then 1 else 0)
          emitByte capture.index) d) := by
  have hcaptures : Reports true (captures.forM fun capture => do
      emitByte (if capture.isLocal then 1 else 0)
      emitByte capture.index) :=
    .forM (fun _ => .bind (Reports.throughout.emitByte _) fun _ => Reports.throughout.emitByte _) _
  refine Meets.bind (abreast.makeConstant true holds holds' kin lined)
    (fun _ => .bind (Reports.throughout.emitWith _ _) fun _ => hcaptures)
    (fun _ => .bind (Reports.throughout.emitWith _ _) fun _ => hcaptures) (.inl rfl)
    fun i c' j d' s' _ habreast hstored _ _ _ _ run run' _ _ => ?_
  obtain ⟨_, mid, hop, hrest⟩ := bind_eq_ok_iff.mp run
  obtain ⟨_, mid', hop', hrest'⟩ := bind_eq_ok_iff.mp run'
  exact .inl ⟨_, .write _ _ _, habreast.writes
    ((emitWith_writes hop).trans (forM_captures_writes hrest))
    ((emitWith_writes hop').trans (forM_captures_writes hrest'))
    (.closure hstored.2 count proper hstored.1) (fun habsurd => by cases habsurd), trivial⟩

theorem functionOutside_meets (abreast : Abreast S ((p, s) :: around) p' s' c d) :
    Meets S around p closes any s (functionOutside c) (functionOutside d) := by
  intro u c₁ u' d₁ run run' quiet quiet'
  obtain ⟨f, c₂, hfinish, hrest⟩ := bind_eq_ok_iff.mp run
  obtain ⟨f', d₂, hfinish', hrest'⟩ := bind_eq_ok_iff.mp run'
  rw [bind_of_ok (get_apply _), bind_of_ok (leaveFunction_apply _)] at hrest hrest'
  have hreports : ∀ (f : Handle) (captures : Array Capture), Reports true (do
      emitWith .closure (← makeConstant (.object f))
      captures.toList.forM fun capture => do
        emitByte (if capture.isLocal then 1 else 0)
        emitByte capture.index) := fun f captures =>
    .bind (Reports.throughout.makeConstant _) fun _ =>
      .bind (Reports.throughout.emitWith _ _) fun _ =>
      .forM (fun _ => .bind (Reports.throughout.emitByte _) fun _ =>
        Reports.throughout.emitByte _) _
  have hquiet := quiet_of_quiet_left ((hreports _ _).quiet hrest quiet)
  have hquiet' := quiet_of_quiet_left ((hreports _ _).quiet hrest' quiet')
  obtain ⟨s₂, habreast, hfound, hfound'⟩ :=
    abreast.finished (List.cons_ne_nil _ _) hfinish hfinish' hquiet hquiet'
  obtain ⟨t, t', ks, ks', holds, holds', hkin, hlined, hcount⟩ := habreast.function hfound hfound'
  obtain ⟨houter, hheap, hheap'⟩ := habreast.left
  rw [habreast.draft.captures] at hrest'
  exact houter.closure (hheap ▸ holds) (hheap' ▸ holds') hkin hlined
    (by rw [Array.length_toList, hcount]) habreast.draft.proper _ _ _ _ hrest hrest' quiet quiet'

/-- Both compilers compile a function. -/
theorem functionBody_pace {block block' : CompileM Unit}
    (body : ∀ around pre, Pace S around ⟨1, 1⟩ ⟨1, 1⟩ true pre block block' any)
    (steps steps' : Nat) :
    Pace S around p p closes pre (functionBody block steps) (functionBody block' steps') any := by
  have hleft := (body around pre).left
  have hright := (body around pre).right
  refine ⟨Reports.throughout.functionBody hleft, Reports.throughout.functionBody hright,
    fun s c d abreast hpre => ?_⟩
  rw [functionBody_eq, functionBody_eq, bind_of_ok (get_apply _), bind_of_ok (get_apply _),
    abreast.previous.lexeme]
  refine abreast.intern fun h h' heap heap' htext htext' habreast => ?_
  rw [bind_of_ok (enterFunction_apply _ h), bind_of_ok (enterFunction_apply _ h')]
  have hinner := habreast.entered htext htext'
  intro u c₁ u' d₁ run run' quiet quiet'
  obtain ⟨_, c₂, hinside, houtside⟩ := bind_eq_ok_iff.mp run
  obtain ⟨_, d₂, hinside', houtside'⟩ := bind_eq_ok_iff.mp run'
  obtain ⟨s₂, -, hmid, -⟩ | ⟨hfalse, -⟩ :=
    (functionInside_pace (body _ (.plain True)) steps steps').meets _ _ _ hinner trivial _ _ _ _
      hinside hinside' (functionOutside_reports.quiet houtside quiet)
      (functionOutside_reports.quiet houtside' quiet')
  · exact functionOutside_meets hmid _ _ _ _ houtside houtside' quiet quiet'
  · cases hfalse

end Lox.Compiler
