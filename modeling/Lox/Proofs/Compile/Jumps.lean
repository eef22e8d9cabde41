import Lox.Proofs.Compile.Allocations
import Lox.Proofs.Compile.Jumps.Steps
import Lox.Proofs.Compile.Totality
import Lox.Proofs.Heap.History
import Lox.Proofs.Machine.Jumping

/-!
# Jumps over the code between

The compiler counts the distance of a jump when its target is known, and the machine counts it off
when it has read the operand. Between the two all kinds of code are written, whole functions among
it, and other jumps are patched. `compileSurveyed` notes every jump with its target, and here it is
shown that the machine ends up there: each form is followed by `Tracks`, with the marks of the jumps
that wait for their targets, until the function is finished and none is left. A distance that is too
long for an operand of two bytes is reported, unless an earlier error withholds it.

## Main definitions

* `JumpSite.Settled` — what is made of a jump in a finished function.

## Main results

* `surveyor_imitates`, `surveyor_operators`, `surveyor_statements` — the forms of the compiler.
* `declarationAt_balanced` — no declaration leaves a jump without a target.
* `JumpSite.Placed.leadsTo` — the machine goes on at the target.
* `jumps_exact` — whole programs.
-/

namespace Lox

namespace Compiler

variable {K : Marks} {Ks : List Marks}

/-! ### Steps without jumps -/

/-- Whatever writes behind leaves the marks as it found them. -/
theorem surveyor_imitates : Imitates surveyor (fun _ => Extends) fun _ => Balanced where
  closed := Extends.closed
  lift step _ _ := .lift step
  pure a _ _ := .pure a
  bind first rest K Ks := .bind (first K Ks) fun a => rest a K Ks
  read _ rest K Ks := .read fun c => rest c K Ks
  makeConstant value _ _ := .lift (makeConstant_extends value)
  addLocal name _ _ := .lift (addLocal_extends name)
  resolve name _ _ := .lift (resolve_extends name)
  closeScope _ _ := .lift Extends.closed.closeScope
  countParameter _ _ := .lift countParameter_extends

/-! ### Operators -/

section Operators

variable {parse : Precedence → SurveyM Unit} {parse' : Precedence → CompileM Unit}

theorem andOperator_balanced (right : Balanced (parse .and) (parse' .and)) :
    Balanced (surveyor.andOperator parse) (andOperator parse') := fun _ Ks =>
  .bind (emitJump_tracks (.inr rfl)) fun _ => .bind (.lift (Extends.closed.emit _)) fun _ =>
    .bind (right _ Ks) fun _ => patchJump_tracks []

/-- The jump to the right operand is patched while the one to the end waits. -/
theorem orOperator_balanced (right : Balanced (parse .or) (parse' .or)) :
    Balanced (surveyor.orOperator parse) (orOperator parse') := fun _ Ks =>
  .bind (emitJump_tracks (.inr rfl)) fun _ => .bind (emitJump_tracks (.inl rfl)) fun toEnd =>
    .bind (patchJump_tracks [toEnd]) fun _ => .bind (.lift (Extends.closed.emit _)) fun _ =>
      .bind (right _ Ks) fun _ => patchJump_tracks []

theorem surveyor_operators : Operators surveyor fun _ => Balanced where
  call value _ := surveyor_imitates.callOperator
    (fun count _ _ => .lift (countArgument_extends count))
    (fun _ _ _ => .lift (Extends.closed.emitWith _ _)) value
  and := andOperator_balanced
  or := orOperator_balanced

end Operators

/-! ### Choices and loops -/

section Statements

variable {value inner statement : SurveyM Unit} {value' inner' statement' : CompileM Unit}
  {steps : Nat}

theorem ifStatement_balanced (condition : Balanced value value')
    (part : Balanced statement statement') :
    Balanced (surveyor.ifStatement value statement) (ifStatement value' statement') := by
  intro K Ks
  have hend : ∀ toEnd : Nat, Tracks (⟨toEnd :: K.pending, K.reached⟩ :: Ks)
      (Surveyed.patchJump toEnd) (patchJump toEnd) fun _ => K :: Ks := fun _ => patchJump_tracks []
  exact .bind (.lift (Extends.closed.expect _ _)) fun _ => .bind (condition K Ks) fun _ =>
    .bind (.lift (Extends.closed.expect _ _)) fun _ => .bind (emitJump_tracks (.inr rfl)) fun _ =>
      .bind (.lift (Extends.closed.emit _)) fun _ => .bind (part _ Ks) fun _ =>
        .bind (emitJump_tracks (.inl rfl)) fun toEnd => .bind (patchJump_tracks [toEnd]) fun _ =>
          .bind (.lift (Extends.closed.emit _)) fun _ =>
            .bind (.lift (Extends.closed.accept _)) fun _ =>
            .ite (.bind (part _ Ks) fun _ => hend _) (hend _)

/-- A loop leads back to the start of its condition. -/
theorem whileStatement_balanced (condition : Balanced value value')
    (part : Balanced statement statement') :
    Balanced (surveyor.whileStatement value statement) (whileStatement value' statement') :=
  fun K Ks => .bind codeSize_tracks fun start => .forget
    (.bind (.lift (Extends.closed.expect _ _)) fun _ => .bind (condition _ Ks) fun _ =>
      .bind (.lift (Extends.closed.expect _ _)) fun _ => .bind (emitJump_tracks (.inr rfl)) fun _ =>
        .bind (.lift (Extends.closed.emit _)) fun _ => .bind (part _ Ks) fun _ =>
          .bind (emitLoop_tracks (List.mem_cons_self ..)) fun _ =>
            .bind (patchJump_tracks []) fun _ => .lift (Extends.closed.emit _))
    (fun _ => rfl) fun _ => List.subset_cons_self start K.reached

/-! ### Loops with clauses -/

/-- Only a condition jumps to the end. -/
theorem forCondition_tracks (part : Balanced value value') :
    Tracks (K :: Ks) (surveyor.forCondition value) (forCondition value')
      fun toEnd => { K with pending := toEnd.toList ++ K.pending } :: Ks := by
  let answers (toEnd : Option Nat) : List Marks :=
    { K with pending := toEnd.toList ++ K.pending } :: Ks
  exact .bind (.lift (Extends.closed.accept _)) fun _ => .ite (.answer answers none) <|
    .bind (part K Ks) fun _ => .bind (.lift (Extends.closed.expect _ _)) fun _ =>
      .bind (emitJump_tracks (.inr rfl)) fun toEnd => .bind (.lift (Extends.closed.emit _)) fun _ =>
        .answer answers (some toEnd)

/-- The body leads back to the increment, if there is one, and that leads back to the start. -/
theorem forIncrement_tracks (part : Balanced value value') {start : Nat}
    {pending reached : List Nat} :
    Tracks (⟨pending, start :: reached⟩ :: Ks) (surveyor.forIncrement value start)
      (forIncrement value' start) fun start => ⟨pending, start :: reached⟩ :: Ks := by
  let answers (start : Nat) : List Marks := ⟨pending, start :: reached⟩ :: Ks
  -- the jump over the increment ends where the body starts, and the start is of no interest then
  have hpatch : ∀ toBody increment : Nat,
      Tracks (⟨toBody :: pending, increment :: start :: reached⟩ :: Ks)
        (Surveyed.patchJump toBody) (patchJump toBody) fun _ => answers increment :=
    fun _ increment => .forget (patchJump_tracks []) (fun _ => rfl)
      fun _ => List.cons_subset_cons increment (List.subset_cons_self start reached)
  exact .bind (.lift (Extends.closed.accept _)) fun _ => .ite (.answer answers start) <|
    .bind (emitJump_tracks (.inl rfl)) fun toBody => .bind codeSize_tracks fun increment =>
      .bind (part _ Ks) fun _ => .bind (.lift (Extends.closed.emit _)) fun _ =>
        .bind (.lift (Extends.closed.expect _ _)) fun _ =>
          .bind (emitLoop_tracks (by simp)) fun _ =>
          .bind (hpatch toBody increment) fun _ => .answer answers increment

theorem forStatement_balanced (part : Balanced value value')
    (body : Balanced statement statement') :
    Balanced (surveyor.forStatement value statement) (forStatement value' statement') := by
  intro K Ks
  have hloop : ∀ (start : Nat) (pending : List Nat), Tracks (⟨pending, start :: K.reached⟩ :: Ks)
      (Surveyed.emitLoop start) (emitLoop start) fun _ => ⟨pending, K.reached⟩ :: Ks :=
    fun start _ => .forget (emitLoop_tracks (List.mem_cons_self ..)) (fun _ => rfl)
      fun _ => List.subset_cons_self start K.reached
  refine .bind (.lift Extends.closed.openScope) fun _ =>
    .bind (.lift (Extends.closed.expect _ _)) fun _ =>
    .bind (surveyor_imitates.forInitializer part K Ks) fun _ => .bind codeSize_tracks fun start =>
      .bind (forCondition_tracks part) fun toEnd => .bind (forIncrement_tracks part) fun start =>
        .bind (body _ Ks) fun _ => .bind (hloop start _) fun _ => ?_
  cases toEnd with
  | none => exact .lift Extends.closed.closeScope
  | some toEnd =>
      exact .bind (patchJump_tracks []) fun _ => .bind (.lift (Extends.closed.emit _)) fun _ =>
        .lift Extends.closed.closeScope

/-! ### Functions -/

/-- The jumps of a function have their targets when it is finished. -/
theorem functionBody_balanced (body : Balanced inner inner') :
    Balanced (surveyor.functionBody inner steps) (functionBody inner' steps) := by
  intro K Ks
  -- the function has no jumps before its body, and those around it wait meanwhile
  have hrest : Tracks ({} :: K :: Ks) (do
      expect .rightParen .parenAfterParameters
      expect .leftBrace .braceBeforeBody
      inner
      let function ← Surveyed.finishFunction
      let captures := (← getThe Compiler).draft.captures
      Surveyed.leaveFunction
      emitWith .closure (← makeConstant (.object function))
      (captures.toList.forM fun capture => do
        emitByte (if capture.isLocal then 1 else 0)
        emitByte capture.index : CompileM Unit)) (do
      expect .rightParen .parenAfterParameters
      expect .leftBrace .braceBeforeBody
      inner'
      let function ← finishFunction
      let captures := (← get).draft.captures
      leaveFunction
      emitWith .closure (← makeConstant (.object function))
      captures.toList.forM fun capture => do
        emitByte (if capture.isLocal then 1 else 0)
        emitByte capture.index) fun _ => K :: Ks :=
    .bind (.lift (Extends.closed.expect _ _)) fun _ =>
      .bind (.lift (Extends.closed.expect _ _)) fun _ =>
      .bind (body {} (K :: Ks)) fun _ => .bind (finishFunction_tracks rfl) fun _ => .read fun _ =>
        .bind leaveFunction_tracks fun _ => .bind (.lift (makeConstant_extends _)) fun _ =>
          .bind (.lift (Extends.closed.emitWith _ _)) fun _ => .lift (Extends.closed.emitCaptures _)
  exact .read fun _ => .bind (.lift (intern_extends _)) fun _ =>
    .bind (enterFunction_tracks _) fun _ => .bind (.lift Extends.closed.openScope) fun _ =>
      .bind (.lift (Extends.closed.expect _ _)) fun _ =>
        .bind (.lift (Extends.closed.check _)) fun _ =>
        .ite (.bind (surveyor_imitates.parameters {} (K :: Ks)) fun _ => hrest) hrest

theorem surveyor_statements : Statements surveyor fun _ => Balanced where
  choice := ifStatement_balanced
  loop := whileStatement_balanced
  rounds := forStatement_balanced
  body block _ := functionBody_balanced block

end Statements

/-! ### Programs -/

/-- Whatever is made of declarations leaves no jump without a target. -/
theorem declarationAt_balanced (steps : Nat) :
    Balanced (surveyor.declarationAt steps) (declarationAt steps) :=
  (surveyor_imitates.statementAt_declarationAt surveyor_statements synchronize_extends id
    (fun steps => surveyor_imitates.expressionAt surveyor_operators steps .assignment) steps).2

/-- The jumps of the script have their targets at the end. -/
theorem program_tracks (steps : Nat) :
    Tracks [{}] (surveyor.program steps) (program steps) fun _ => [{}] :=
  .bind (.lift Extends.closed.advance) fun _ =>
    .bind (surveyor_imitates.programDeclarations (declarationAt_balanced steps) {} [])
      fun _ => finishFunction_tracks rfl

/-- There are no jumps before the start. -/
theorem start_holds (tokens : TokenStream) (held : List Handle) (heap : Heap) :
    Survey.Holds [{}] {} (start tokens held heap) :=
  ⟨.cons (.nil _) .nil, List.forall_mem_nil _, List.forall_mem_nil _⟩

end Compiler

/-! ### Finished functions -/

/-- A jump in the code of a finished function has been given its target exactly. If the distance
fits into two bytes, the operand still holds it, and the machine goes on at the target. If it does
not, the program is rejected for that, or for the error that withheld it. -/
def JumpSite.Settled (k : Chunk) (result : Except (List Diagnostic) Handle) (site : JumpSite) :
    Prop :=
  ∃ aim, site.aim = some aim ∧ aim.Exact site ∧
    (site.reach aim.target ≤ 65535 → k.pairAt? site.operand = some (site.reach aim.target) ∧
      k.LeadsTo site.op (site.operand - 1) aim.target) ∧
    (65535 < site.reach aim.target → ∃ ds, result = .error ds ∧ ∃ d ∈ ds,
      aim.before.alarm = some d ∨ aim.before.alarm = none ∧ aim.after.alarm = some d ∧
        d.issue.message =
          if site.op = .loop then "Loop body too large." else "Too much code to jump over.")

section

variable {k : Chunk} {site : JumpSite} {aim : Aim}

/-- The machine goes on at the target of a jump whose distance fits. -/
theorem JumpSite.Placed.leadsTo (placed : site.Placed k.code) (aimed : site.aim = some aim)
    (near : site.reach aim.target ≤ 65535) :
    k.LeadsTo site.op (site.operand - 1) aim.target := by
  have hpos := placed.pos
  have hoperand : k.pairAt? (site.operand - 1 + 1) = some (site.reach aim.target) := by
    rw [Nat.sub_add_cancel hpos]
    exact placed.operand aim aimed near
  have hexact := placed.exact aim aimed
  have hforward : site.op = .jump ∨ site.op = .jumpIfFalse →
      k.LeadsTo site.op (site.operand - 1) aim.target := by
    intro hop
    obtain ⟨-, hbehind, -⟩ := hexact.forward (by rcases hop with h | h <;> simp [h])
    have htarget : aim.target = site.operand - 1 + 3 + site.reach aim.target := by
      rw [JumpSite.reach]
      omega
    rw [htarget]
    exact Machine.leadsTo_of_forward hop placed.op hoperand
  rcases placed.kind with hop | hop | ⟨hop, -⟩
  · exact hforward (.inl hop)
  · exact hforward (.inr hop)
  · obtain ⟨hbefore, hplace, -⟩ := hexact.back hop
    have htarget : aim.target = site.operand - 1 + 3 - site.reach aim.target := by
      rw [JumpSite.reach]
      omega
    rw [htarget, hop]
    refine Machine.leadsTo_of_loop (hop ▸ placed.op) hoperand ?_
    rw [JumpSite.reach]
    omega

/-- What is among the diagnostics where a jump is too long. -/
theorem JumpSite.verdict_cases (site : JumpSite) (aim : Aim) :
    aim.before.alarm = some (site.verdict aim) ∨ aim.before.alarm = none ∧
      (site.verdict aim).issue.message =
        if site.op = .loop then "Loop body too large." else "Too much code to jump over." := by
  unfold JumpSite.verdict
  cases aim.before.alarm with
  | some d => exact .inl rfl
  | none => exact .inr ⟨rfl, site.message_issue⟩

end

variable {tokens : TokenStream} {held : List Handle} {heap heap' : Heap}

/-- Forgetting the survey gives the compiler. -/
theorem forget_compileSurveyed :
    Prod.fst <$> compileSurveyed tokens held = compile tokens held := by
  funext heap
  have hsame := congrFun ((Compiler.program_tracks (tokens.pending.length + 2)).same {})
    (.start tokens held heap)
  change EStateM.map Prod.fst (compileSurveyed tokens held) heap = _
  rw [EStateM.map, compileSurveyed, compile]
  cases hrun : (Compiler.surveyor.program (tokens.pending.length + 2)).run {}
      (.start tokens held heap) with
  | ok result c =>
      rw [map_eq_pure_bind, bind_of_ok hrun] at hsame
      rw [← hsame]
      rfl
  | error fault c =>
      rw [map_eq_pure_bind, bind_of_error hrun] at hsame
      rw [← hsame]

/-- An outcome of the compiler, with the functions and their jumps. -/
theorem compileSurveyed_of_ok {result : Except (List Diagnostic) Handle}
    (run : compile tokens held heap = .ok result heap') :
    ∃ functions, compileSurveyed tokens held heap = .ok (result, functions) heap' := by
  rw [← forget_compileSurveyed, map_eq_pure_bind] at run
  obtain ⟨⟨result', functions⟩, mid, hsurveyed, hpure⟩ := bind_eq_ok_iff.mp run
  cases hpure
  exact ⟨functions, hsurveyed⟩

/-- The jumps of a program. -/
theorem compileSurveyed_settled {result : Except (List Diagnostic) Handle}
    {functions : List (Function × List JumpSite)}
    (run : compileSurveyed tokens held heap = .ok (result, functions) heap') :
    ∀ f ∈ functions, ∀ site ∈ f.2, site.Settled f.1.chunk result := by
  unfold compileSurveyed at run
  split at run
  · rename_i script survey c hrun
    have hholds := (Compiler.program_tracks _).kept _ _ _ _ _ (Compiler.start_holds ..) hrun
    cases run
    intro f hf site hsite
    have hfit := hholds.finished f hf
    have hplaced := hfit.maps.placed site hsite
    cases haim : site.aim with
    | none => exact absurd ((hfit.pending _).mpr ⟨site, hsite, rfl, haim⟩) List.not_mem_nil
    | some aim =>
        have hexact := hplaced.exact aim haim
        refine ⟨aim, haim, hexact, fun hnear => ⟨hplaced.operand aim haim hnear,
          hplaced.leadsTo haim hnear⟩, fun hfar => ?_⟩
        have hknown : site ∈ survey.all :=
          List.mem_append_right _ (List.mem_flatMap.mpr ⟨f, hf, hsite⟩)
        have hraised := (hexact.far hfar).1
        have hreported : site.verdict aim ∈ c.reported.toList :=
          hholds.told site hknown aim haim (Compiler.mem_reported_of_alarm hraised)
        refine ⟨c.reported.toList, if_neg fun hempty => ?_, site.verdict aim, hreported,
          (site.verdict_cases aim).imp_right fun h => ⟨h.1, hraised, h.2⟩⟩
        rw [Array.isEmpty_iff.mp hempty] at hreported
        cases hreported
  · cases run

/-! ### The script -/

/-- Interning strings and allocating functions leaves the heap in order. -/
theorem Compiler.Evolution.orderly (evolution : Compiler.Evolution heap heap')
    (orderly : heap.Orderly) : heap'.Orderly := by
  induction evolution with
  | refl => exact orderly
  | tail _ huse ih =>
      cases huse with
      | intern hrun => exact (Heap.internedAs_of_ok ih hrun).orderly ih
      | function hrun => exact (Heap.allocated_of_ok ih hrun).orderly

/-- A function that has been finished is behind its handle. -/
theorem Compiler.object?_finishFunction {c c' : Compiler} {h : Handle} (orderly : c.heap.Orderly)
    (run : finishFunction c = .ok h c') :
    c'.heap.object? h = some (.function c'.draft.finish) := by
  obtain ⟨_, _, ⟨⟩, hallocate⟩ := bind_eq_ok_iff.mp run
  split at hallocate
  · rename_i hrun
    cases hallocate
    exact (Heap.allocated_of_ok orderly hrun).object?_self
  · cases hallocate

/-- The script is the function that is finished last. -/
theorem compileSurveyed_script (orderly : heap.Orderly) {script : Handle}
    {functions : List (Function × List JumpSite)}
    (run : compileSurveyed tokens held heap = .ok (.ok script, functions) heap') :
    ∃ f ∈ functions, heap'.object? script = some (.function f.1) := by
  unfold compileSurveyed at run
  split at run
  · rename_i script' survey c hrun
    obtain ⟨_, _, c₁, hlift, hrest⟩ := Compiler.survey_bind_ok_iff.mp hrun
    obtain ⟨hadvance, rfl⟩ := Compiler.survey_lift_ok_iff.mp hlift
    obtain ⟨_, _, c₂, hdeclarations, hend⟩ := Compiler.survey_bind_ok_iff.mp hrest
    obtain ⟨_, _, _, hlift, hnote⟩ := Compiler.survey_bind_ok_iff.mp hend
    obtain ⟨hfinish, rfl⟩ := Compiler.survey_lift_ok_iff.mp hlift
    cases hnote
    have hbalanced := Compiler.declarationAt_balanced (tokens.pending.length + 2)
    have hplain := (Compiler.surveyor_imitates.programDeclarations hbalanced {} []).without
      hdeclarations
    have hpart := Compiler.Evolves.throughout.statementAt_declarationAt
      Compiler.synchronize_evolves (tokens.pending.length + 2)
    have hevolution : Compiler.Evolution heap c₂.heap :=
      (Compiler.Evolves.throughout.advance _ _ _ hadvance).trans
        (Compiler.Evolves.throughout.programDeclarations hpart.2 _ _ _ hplain)
    have hscript := Compiler.object?_finishFunction (hevolution.orderly orderly) hfinish
    by_cases hclean : c.reported.isEmpty = true
    · rw [if_pos hclean] at run
      cases run
      exact ⟨(c.draft.finish, _), List.mem_append_right _ (List.mem_singleton_self _), hscript⟩
    · rw [if_neg hclean] at run
      cases run
  · cases run

/-- Every jump of every function is given its target exactly, whatever the tokens are. A forward
jump leads to where the code ended when it was patched, and a loop leads back to an offset that had
been reached. As long as the distance from the end of the operand is at most 65535, the operand
holds it, patching changes no other byte, nothing is reported, and the machine that takes the jump
goes on at the target. If the distance is longer, the program is rejected, and among the diagnostics
is the one about this jump or the one that withheld it. The script is one of the functions. -/
theorem jumps_exact (final : tokens.final.kind = .endOfInput) (valid : heap.Valid)
    (live : ∀ h ∈ held, heap.Live h) :
    Prod.fst <$> compileSurveyed tokens held = compile tokens held ∧ ∃ heap',
      (∃ result functions, compileSurveyed tokens held heap = .ok (result, functions) heap' ∧
        (∀ script, result = .ok script →
          ∃ f ∈ functions, heap'.object? script = some (.function f.1)) ∧
        ∀ f ∈ functions, ∀ site ∈ f.2, site.Settled f.1.chunk result) ∨
      (compile tokens held heap = .error .overflow heap' ∧
        maxWord < (heap.bytes + tokens.cost) * heap.policy.growth) ∨
      (compile tokens held heap = .error .outOfRange heap' ∧
        ∃ t ∈ tokens.pending, ¬ t.Readable) := by
  refine ⟨forget_compileSurveyed, ?_⟩
  obtain ⟨-, heap', ⟨script, hrun⟩ | ⟨d, ds, hrun⟩ | hfault⟩ := compile_cases final valid live
  · obtain ⟨functions, hsurveyed⟩ := compileSurveyed_of_ok hrun
    refine ⟨heap', .inl ⟨_, functions, hsurveyed, ?_, compileSurveyed_settled hsurveyed⟩⟩
    rintro _ ⟨⟩
    exact compileSurveyed_script valid.toOrderly hsurveyed
  · obtain ⟨functions, hsurveyed⟩ := compileSurveyed_of_ok hrun
    exact ⟨heap', .inl ⟨_, functions, hsurveyed, nofun, compileSurveyed_settled hsurveyed⟩⟩
  · exact ⟨heap', .inr hfault⟩

/-- A function with a choice in it, and a loop behind it. -/
def crossing : TokenStream :=
  .ofList [⟨.funWord, "fun", 1⟩, ⟨.identifier, "f", 1⟩, ⟨.leftParen, "(", 1⟩, ⟨.rightParen, ")", 1⟩,
    ⟨.leftBrace, "\x7b", 1⟩, ⟨.ifWord, "if", 1⟩, ⟨.leftParen, "(", 1⟩, ⟨.nilWord, "nil", 1⟩,
    ⟨.rightParen, ")", 1⟩, ⟨.nilWord, "nil", 1⟩, ⟨.semicolon, ";", 1⟩, ⟨.rightBrace, "\x7d", 1⟩,
    ⟨.whileWord, "while", 2⟩, ⟨.leftParen, "(", 2⟩, ⟨.nilWord, "nil", 2⟩, ⟨.rightParen, ")", 2⟩,
    ⟨.nilWord, "nil", 2⟩, ⟨.semicolon, ";", 2⟩]

/-- The jumps of a program that is accepted, with their operands and targets. -/
def route? (result : EStateM.Result Fault Heap
    (Except (List Diagnostic) Handle × List (Function × List JumpSite))) :
    Option (List (List (OpCode × Nat × Option Nat))) :=
  match result with
  | .ok (.ok _, functions) _ =>
    some (functions.map fun f =>
      f.2.map fun site => (site.op, site.operand, site.aim.map (·.target)))
  | _ => none

/-- The jumps of an accepted program are settled. The function comes first, since it is finished
first. -/
theorem jumps_exact_crossing : ∃ result functions heap',
    compileSurveyed crossing [] (.empty {}) = .ok (result, functions) heap' ∧
      route? (compileSurveyed crossing [] (.empty {})) =
        some [[(.jumpIfFalse, 2, some 10), (.jump, 8, some 11)],
          [(.jumpIfFalse, 6, some 14), (.loop, 12, some 4)]] ∧
      ∀ f ∈ functions, ∀ site ∈ f.2, site.Settled f.1.chunk result := by
  have hroute : route? (compileSurveyed crossing [] (.empty {})) =
      some [[(.jumpIfFalse, 2, some 10), (.jump, 8, some 11)],
        [(.jumpIfFalse, 6, some 14), (.loop, 12, some 4)]] := by decide +kernel
  obtain ⟨hforget, heap', hcases⟩ := @jumps_exact crossing [] (.empty {}) rfl
    (Heap.valid_empty {}) (List.forall_mem_nil _)
  rcases hcases with ⟨result, functions, hrun, -, hsettled⟩ | hfault
  · exact ⟨result, functions, heap', hrun, hroute, hsettled⟩
  · have hfaulty : ∃ fault, compile crossing [] (.empty {}) = .error fault heap' :=
      hfault.elim (fun h => ⟨_, h.1⟩) fun h => ⟨_, h.1⟩
    obtain ⟨fault, herror⟩ := hfaulty
    rw [← hforget, map_eq_pure_bind] at herror
    cases hrun : compileSurveyed crossing [] (.empty {}) with
    | ok p mid =>
        rw [bind_of_ok hrun] at herror
        cases herror
    | error f mid =>
        rw [hrun] at hroute
        cases hroute

end Lox
