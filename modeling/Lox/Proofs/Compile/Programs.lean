import Lox.Proofs.Compile.Functions
import Lox.Proofs.Token.Lexer

/-!
# Compiled programs

The compilers of statements and declarations call each other through blocks and function
bodies. What one form of statement needs of its parts has been stated form by form; here the
knot is tied by induction on the budget of steps.

A source that is accepted is read to its end without any report. It is a program of the
grammar, and the function given back for it encodes the tree of that program.

## Main results

* `statementAt_declarationAt_spec` — any statement and any declaration.
* `compile_sound` — an accepted source and the function of its script.
-/

namespace Lox

namespace Compiler

variable {c c' b : Compiler} {u : Unit} {word : Token}

/-- Between two states a declaration was read and its code was written. -/
def DeclaresOne (c c' : Compiler) : Prop :=
  ∃ ts s bs shapes, Grammar.Declaration ts s ∧ c.Emits ts bs shapes c' ∧ c.Scoped shapes ∧
    ∀ (K : Context) (added : List Variable), added.length = shapes.length →
      (K.push added).Suits c' → Encoding.Declaration K s bs added

/-- A compiler of declarations. -/
def ParsesDeclarations (declaration : CompileM Unit) : Prop :=
  ∀ (c : Compiler) (u : Unit) (c' : Compiler), declaration c = .ok u c' →
    c.Silently c' (c.draft.Settled → c.DeclaresOne c')

/-! ### Lists of declarations -/

/-- No declarations at all. -/
theorem Lists.nil (inOrder : c.InOrder) : c.Lists c := by
  refine ⟨[], [], [], [], .nil, .refl inOrder, ⟨nofun, fun _ => rfl⟩, fun K added hlength _ => ?_⟩
  obtain rfl := List.eq_nil_of_length_eq_zero hlength
  exact .nil

/-- Locals that belong to open scopes leave a draft settled. -/
theorem Emits.settled_of_scoped {ts : List Token} {bs : List UInt8}
    {shapes : List (String × Option Nat)} (emits : c.Emits ts bs shapes c')
    (inside : c.Scoped shapes) (settled : c.draft.Settled) : c'.draft.Settled :=
  emits.draft.settled settled fun s hs => ⟨_, Nat.le_refl _, inside.1 s hs⟩

/-- After a declaration the compiler is in order and its draft is settled. -/
theorem DeclaresOne.next (declares : c.DeclaresOne c') (settled : c.draft.Settled) :
    c'.InOrder ∧ c'.draft.Settled := by
  obtain ⟨_, _, _, _, _, emits, inside, _⟩ := declares
  exact ⟨emits.inOrder, emits.settled_of_scoped inside settled⟩

/-- After declarations the compiler is in order. -/
theorem Lists.inOrder (lists : c.Lists c') : c'.InOrder := by
  obtain ⟨_, _, _, _, _, emits, _⟩ := lists
  exact emits.inOrder

/-- A declaration in front of others. -/
theorem Lists.cons {mid : Compiler} (settled : c.draft.Settled) (first : c.DeclaresOne mid)
    (rest : mid.Lists c') : c.Lists c' := by
  obtain ⟨ts, s, bs, shapes, hs, emits, hscoped, hcode⟩ := first
  obtain ⟨us, ss, ds, more, hss, emits', hscoped', hcode'⟩ := rest
  have hdepth := emits.draft.depth
  refine ⟨ts ++ us, s :: ss, bs ++ ds, more ++ shapes, .cons hs hss, emits.trans emits',
    ⟨fun x hx => ?_, fun hzero => ?_⟩, fun K added hlength suits => ?_⟩
  · rcases List.mem_append.mp hx with hx | hx
    · rw [hscoped'.1 x hx, hdepth]
    · exact hscoped.1 x hx
  · rw [hscoped.2 hzero, hscoped'.2 (hdepth.trans hzero), List.append_nil]
  · rw [List.length_append] at hlength
    have hnewer : (added.take more.length).length = more.length := by
      rw [List.length_take]
      omega
    have holder : (added.drop more.length).length = shapes.length := by
      rw [List.length_drop]
      omega
    rw [← List.take_append_drop more.length added, ← Context.push_push] at suits
    have settled' := emits.settled_of_scoped hscoped settled
    have suits' := suits.outside emits.inOrder emits' settled'
      (emits'.settled_of_scoped hscoped' settled') hnewer
    rw [← List.take_append_drop more.length added]
    exact .cons (hcode K _ holder suits') (hcode' _ _ hnewer suits)

/-- Declarations up to a closing brace or the end of input. -/
theorem declarations_spec {declaration : CompileM Unit} {steps : Nat}
    (each : ParsesDeclarations declaration) (run : declarations declaration steps c = .ok u c') :
    c.Silently c' (c.draft.Settled → c.Lists c') := by
  induction steps generalizing c with
  | zero => cases run
  | succ steps ih =>
      intro quiet
      obtain ⟨_, c₁, hbrace, run⟩ := bind_eq_ok_iff.mp run
      obtain ⟨rfl, rfl⟩ := check_spec hbrace
      obtain ⟨_, c₂, hend, hrest⟩ := bind_eq_ok_iff.mp run
      obtain ⟨rfl, rfl⟩ := check_spec hend
      split at hrest
      · cases hrest
        exact ⟨quiet, fun inOrder _ => .nil inOrder⟩
      · obtain ⟨_, mid, hfirst, hothers⟩ := bind_eq_ok_iff.mp hrest
        obtain ⟨hquiet, hsecond⟩ := ih hothers quiet
        obtain ⟨hquiet, hdeclares⟩ := each _ _ _ hfirst hquiet
        refine ⟨hquiet, fun inOrder settled => ?_⟩
        have first := hdeclares inOrder settled
        obtain ⟨inOrder', settled'⟩ := first.next settled
        exact .cons settled first (hsecond inOrder' settled')

/-- Declarations and the brace that closes them. -/
theorem block_spec {declaration : CompileM Unit} {steps : Nat}
    (each : ParsesDeclarations declaration) : ParsesBlocks (block declaration steps) := by
  intro c u c' run quiet
  obtain ⟨_, mid, hdeclarations, hbrace⟩ := bind_eq_ok_iff.mp run
  obtain ⟨hquiet, hsecond⟩ := expect_spec hbrace (by decide) quiet
  obtain ⟨hquiet, hfirst⟩ := declarations_spec each hdeclarations hquiet
  refine ⟨hquiet, fun inOrder settled => ?_⟩
  have first := hfirst inOrder settled
  obtain ⟨second, hkind, -⟩ := hsecond first.inOrder
  exact ⟨mid, first, second, hkind⟩

/-! ### Any statement -/

/-- A block and its scope. -/
theorem scope_spec {block : CompileM Unit} (blocks : ParsesBlocks block)
    (run : (do openScope
               block
               closeScope) c = .ok u c') (kind : word.kind = .leftBrace) :
    c.Silently c' (b.draft.Settled → b.Emits [word] [] [] c → b.States false c') := by
  intro quiet
  rw [bind_of_ok (openScope_apply c)] at run
  obtain ⟨_, c₁, hblock, hclose⟩ := bind_eq_ok_iff.mp run
  have closes := closeScope_closes hclose
  have hquiet : c₁.Quiet := by
    have hrest := closes.rest
    rw [hrest] at quiet
    exact ⟨quiet.alarm, quiet.diagnostics⟩
  obtain ⟨hquiet, hfirst⟩ := blocks _ _ _ hblock hquiet
  refine ⟨⟨hquiet.alarm, hquiet.diagnostics⟩, fun inOrder settled before => ⟨?_, nofun⟩⟩
  have settled₀ := before.draft.settled settled nofun
  obtain ⟨mid, ⟨ts, ss, bs, shapes, hparsed, inside, ⟨hinner, -⟩, hcode⟩, brace, hbrace⟩ :=
    hfirst inOrder.opened (settled_opened settled₀)
  have whole : c.opened.Emits (ts ++ [mid.current]) bs shapes c₁ := by
    simpa using inside.trans brace
  obtain ⟨closing, emits, hsuits⟩ := closes.emits settled₀ whole hinner
  refine ⟨word :: ts ++ [mid.current], _, _, .block kind hparsed hbrace,
    by simpa using before.trans emits, fun K suits => ?_⟩
  obtain ⟨added, hlength, suits₁, rfl⟩ := hsuits K suits
  exact .block (hcode K.inside added hlength (suits₁.earlier inside.inOrder brace))

/-- A statement. -/
theorem statementWith_spec {expression block statement : CompileM Unit}
    (parts : ParsesExpressions expression) (blocks : ParsesBlocks block)
    (branches : ParsesStatements statement) :
    ParsesStatements (statementWith expression block statement) := by
  intro c u c' run
  -- the word in front of a form has been consumed before the form is compiled
  have behind : ∀ {kind : TokenKind} {c₁ : Compiler}, c.current.kind = kind →
      kind ≠ .endOfInput → advance c = .ok () c₁ →
      c₁.Silently c' (c.draft.Settled → c.Emits [c.current] [] [] c₁ →
        ∃ isOpen, c.States isOpen c') →
      c.Silently c' (c.draft.Settled → ∃ isOpen, c.States isOpen c') := by
    intro kind c₁ hkind hreal hadvance hform quiet
    obtain ⟨hquiet, hsecond⟩ := hform quiet
    obtain ⟨hquiet, hfirst⟩ := advance_spec hadvance (hkind ▸ hreal) hquiet
    refine ⟨hquiet, fun inOrder settled => ?_⟩
    obtain ⟨first, -⟩ := hfirst inOrder
    exact hsecond first.inOrder settled first
  rcases accept_cases run with ⟨hkind, c₁, hadvance, hform⟩ | ⟨-, run⟩
  · exact behind hkind (by decide) hadvance fun quiet =>
      (printStatement_spec parts hform hkind quiet).imp_right
        fun h inOrder _ before => ⟨false, h inOrder before⟩
  rcases accept_cases run with ⟨hkind, c₁, hadvance, hform⟩ | ⟨-, run⟩
  · exact behind hkind (by decide) hadvance (ifStatement_spec parts branches hform hkind)
  rcases accept_cases run with ⟨hkind, c₁, hadvance, hform⟩ | ⟨-, run⟩
  · exact behind hkind (by decide) hadvance fun quiet =>
      (returnStatement_spec parts hform hkind quiet).imp_right
        fun h inOrder _ before => ⟨false, h inOrder before⟩
  rcases accept_cases run with ⟨hkind, c₁, hadvance, hform⟩ | ⟨-, run⟩
  · exact behind hkind (by decide) hadvance (whileStatement_spec parts branches hform hkind)
  rcases accept_cases run with ⟨hkind, c₁, hadvance, hform⟩ | ⟨-, run⟩
  · exact behind hkind (by decide) hadvance (forStatement_spec parts branches hform hkind)
  rcases accept_cases run with ⟨hkind, c₁, hadvance, hform⟩ | ⟨-, run⟩
  · exact behind hkind (by decide) hadvance fun quiet =>
      (scope_spec blocks hform hkind quiet).imp_right
        fun h inOrder settled before => ⟨false, h inOrder settled before⟩
  intro quiet
  obtain ⟨hquiet, hspec⟩ := expressionStatement_spec parts run quiet
  refine ⟨hquiet, fun inOrder _ => ⟨false, ?_, nofun⟩⟩
  obtain ⟨ts, e, bs, hparsed, emits, hcode⟩ := hspec inOrder
  exact ⟨ts, _, bs, .expression hparsed, emits, hcode⟩

/-! ### Any declaration -/

/-- Skipping a statement forgets no diagnostic. -/
theorem quiet_of_quiet_skip {steps : Nat} (run : skipStatement steps c = .ok u c')
    (quiet : c'.Quiet) : c.Quiet := by
  induction steps generalizing c with
  | zero => cases run
  | succ steps ih =>
      rw [skipStatement, bind_of_ok (get_apply c)] at run
      split at run
      · cases run
        exact quiet
      · obtain ⟨_, mid, hadvance, hrest⟩ := bind_eq_ok_iff.mp run
        exact (advance_reads hadvance (ih hrest)).1

/-- A panic that has been ended was reported. -/
theorem not_quiet_synchronize (run : synchronize c = .ok u c') (panicking : c.panicking = true) :
    ¬ c'.Quiet := by
  intro quiet
  obtain ⟨_, mid, hrecover, run⟩ := bind_eq_ok_iff.mp run
  cases hrecover
  rw [bind_of_ok (get_apply _)] at run
  have hnone := (quiet_of_quiet_skip run quiet).diagnostics
  obtain ⟨d, hd⟩ := Option.isSome_iff_exists.mp panicking
  simp [reported, hd] at hnone

/-- A declaration that reports nothing ends no panic. -/
theorem recover_spec (run : (do if (← (get : CompileM Compiler)).panicking then synchronize)
    c = .ok u c') (quiet : c'.Quiet) : c' = c := by
  rw [bind_of_ok (get_apply c)] at run
  split at run
  · rename_i hpanic
    exact absurd quiet (not_quiet_synchronize run hpanic)
  · cases run
    rfl

/-- A declaration. -/
theorem declarationWith_spec {expression block statement : CompileM Unit} {steps : Nat}
    (parts : ParsesExpressions expression) (blocks : ParsesBlocks block)
    (statements : ParsesStatements statement) :
    ParsesDeclarations (declarationWith expression block statement steps) := by
  intro c u c' run quiet
  obtain ⟨_, c₁, haccept, hrest⟩ := bind_eq_ok_iff.mp run
  rcases accept_spec haccept with ⟨rfl, hkind, hadvance⟩ | ⟨rfl, -, rfl⟩
  · obtain ⟨_, mid, hform, hrecover⟩ := bind_eq_ok_iff.mp hrest
    obtain rfl := recover_spec hrecover quiet
    obtain ⟨hquiet, hsecond⟩ := funDeclaration_spec (b := c) blocks hform hkind quiet
    obtain ⟨hquiet, hfirst⟩ := advance_spec hadvance (by rw [hkind]; decide) hquiet
    refine ⟨hquiet, fun inOrder settled => ?_⟩
    obtain ⟨first, -⟩ := hfirst inOrder
    exact hsecond first.inOrder settled first
  obtain ⟨_, c₂, haccept, hlast⟩ := bind_eq_ok_iff.mp hrest
  rcases accept_spec haccept with ⟨rfl, hkind, hadvance⟩ | ⟨rfl, -, rfl⟩
  · obtain ⟨_, mid, hform, hrecover⟩ := bind_eq_ok_iff.mp hlast
    obtain rfl := recover_spec hrecover quiet
    obtain ⟨hquiet, hsecond⟩ := varDeclaration_spec (b := c₁) parts hform hkind quiet
    obtain ⟨hquiet, hfirst⟩ := advance_spec hadvance (by rw [hkind]; decide) hquiet
    refine ⟨hquiet, fun inOrder settled => ?_⟩
    obtain ⟨first, -⟩ := hfirst inOrder
    obtain ⟨ts, s, bs, shapes, hparsed, rest⟩ := hsecond first.inOrder settled first
    exact ⟨ts, s, bs, shapes, .variable hparsed, rest⟩
  · obtain ⟨_, mid, hform, hrecover⟩ := bind_eq_ok_iff.mp hlast
    obtain rfl := recover_spec hrecover quiet
    obtain ⟨hquiet, hstates⟩ := statements _ _ _ hform quiet
    refine ⟨hquiet, fun inOrder settled => ?_⟩
    obtain ⟨isOpen, ⟨ts, s, bs, hparsed, emits, hcode⟩, -⟩ := hstates inOrder settled
    refine ⟨ts, s, bs, [], .statement hparsed, emits, ⟨nofun, fun _ => rfl⟩,
      fun K added hlength suits => ?_⟩
    obtain rfl := List.eq_nil_of_length_eq_zero hlength
    exact hcode K suits

/-- The compiler of expressions, without what it says about the operator ahead. -/
theorem parsesExpressions (steps : Nat) : ParsesExpressions (expression steps) := by
  intro c u c' run quiet
  obtain ⟨hquiet, hspec⟩ := expression_spec run quiet
  exact ⟨hquiet, fun inOrder => (hspec inOrder).1⟩

/-- Any statement and any declaration. -/
theorem statementAt_declarationAt_spec (steps : Nat) :
    ParsesStatements (statementAt steps) ∧ ParsesDeclarations (declarationAt steps) := by
  induction steps with
  | zero =>
      exact ⟨fun _ _ _ run => by simp [statementAt] at run,
        fun _ _ _ run => by simp [declarationAt] at run⟩
  | succ steps ih =>
      have parts := parsesExpressions (steps + 1)
      have blocks : ParsesBlocks (block (declarationAt steps) (steps + 1)) := block_spec ih.2
      have statements := statementWith_spec parts blocks ih.1
      exact ⟨by rw [statementAt]; exact statements,
        by rw [declarationAt]; exact declarationWith_spec parts blocks statements⟩

/-! ### Programs -/

/-- What is emitted behind the end of input may be said of the state in front of it. -/
theorem Reads.rewind {c'' : Compiler} {bs : List UInt8} {shapes : List (String × Option Nat)}
    (reads : Reads c c') (inOrder : c.InOrder) (emits : c'.Emits [] bs shapes c'') :
    c.Emits [] bs shapes
      { c'' with tokens := c.tokens, current := c.current, previous := c.previous } := by
  obtain ⟨-, -, hdraft, henclosing, hheld, hkeeps, hfed, hvalid, hlive, hdrafts, hlinked⟩ := emits
  have hrest := reads.rest
  rw [hrest] at hdraft henclosing hheld hkeeps
  exact ⟨rfl, fun _ => ⟨rfl, rfl⟩, hdraft, henclosing, hheld, hkeeps,
    ⟨inOrder.fed.final, inOrder.fed.pending, inOrder.fed.drained⟩, hvalid, hlive, hdrafts, hlinked⟩

/-- Declarations up to the end of input, which is consumed without any further effect. -/
theorem programDeclarations_spec {declaration : CompileM Unit} {steps : Nat}
    (each : ParsesDeclarations declaration)
    (run : programDeclarations declaration steps c = .ok u c') :
    c.Silently c' (c.draft.Settled → ∃ mid, c.Lists mid ∧ mid.current.kind = .endOfInput ∧
      Reads mid c') := by
  induction steps generalizing c with
  | zero => cases run
  | succ steps ih =>
      intro quiet
      rcases accept_cases run with ⟨hkind, mid, hadvance, hdone⟩ | ⟨-, run⟩
      · cases hdone
        obtain ⟨hquiet, hreads⟩ := advance_reads hadvance quiet
        exact ⟨hquiet, fun inOrder _ =>
          ⟨c, .nil inOrder, hkind, hreads inOrder.fed.final inOrder.fed.pending⟩⟩
      · obtain ⟨_, next, hfirst, hothers⟩ := bind_eq_ok_iff.mp run
        obtain ⟨hquiet, hsecond⟩ := ih hothers quiet
        obtain ⟨hquiet, hdeclares⟩ := each _ _ _ hfirst hquiet
        refine ⟨hquiet, fun inOrder settled => ?_⟩
        have first := hdeclares inOrder settled
        obtain ⟨inOrder', settled'⟩ := first.next settled
        obtain ⟨mid, hlists, hend⟩ := hsecond inOrder' settled'
        exact ⟨mid, .cons settled first hlists, hend⟩

variable {tokens : TokenStream} {held : List Handle} {heap heap' : Heap} {script : Handle}

/-- Before the first token the only roots are those of the caller. -/
theorem rooted_start : (start tokens held heap).rooted = held := by
  simp [rooted, roots, start, Draft.handles]

/-- Behind a token that has been pulled out of a stream without any report lie all others. -/
theorem ahead_pull {pending : List Token} (final : c.tokens.final.kind = .endOfInput)
    (real : ∀ t ∈ pending, t.kind ≠ .endOfInput) (quiet : (pull c pending).Quiet) :
    (pull c pending).ahead = pending := by
  cases pending with
  | nil => simp [ahead, pull, final]
  | cons t pending =>
      have hkind : t.kind ≠ .malformed := by
        intro hkind
        rw [pull, if_pos hkind] at quiet
        exact not_quiet_report (quiet_of_quiet_pull quiet)
      rw [pull, if_neg hkind]
      exact if_neg (real t (by simp))

/-- The first token leaves the compiler in order, with all tokens ahead of it. -/
theorem advance_start (valid : heap.Valid) (live : ∀ h ∈ held, heap.Live h)
    (final : tokens.final.kind = .endOfInput)
    (pending : ∀ t ∈ tokens.pending, t.kind ≠ .endOfInput)
    (run : advance (start tokens held heap) = .ok u c) (quiet : c.Quiet) :
    c.InOrder ∧ c.ahead = tokens.pending ∧
      c = { start tokens held heap with
        tokens := c.tokens, current := c.current, previous := c.previous } := by
  obtain ⟨-, hreads⟩ := advance_reads run quiet
  have reads := hreads final pending
  have hrest := reads.rest
  refine ⟨⟨reads.fed, ?_, ?_, ?_, ?_⟩, ?_, hrest⟩
  · rw [hrest]
    exact valid
  · have hrooted : c.rooted = held := by
      rw [hrest]
      exact (rooted_start : (start tokens held heap).rooted = held)
    rw [hrooted, hrest]
    exact live
  · rw [hrest]
    intro d hd
    obtain rfl := List.mem_singleton.mp hd
    exact ⟨rfl, ⟨[], .nil, nofun⟩, ⟨none, trivial⟩, (by decide : 1 ≤ 256), Nat.zero_le _,
        List.nodup_nil⟩
  · rw [hrest]
    exact ⟨rfl, rfl⟩
  · cases run
    exact ahead_pull final pending quiet

/-- The code of a program, once its script has been finished. -/
theorem script_encodes {ts : List Token} {ss : List Stmt} {bs : List UInt8}
    (fresh : c.draft.name = none ∧ c.draft.arity = 0 ∧ c.draft.depth = 0 ∧
      c.draft.chunk.code = #[] ∧ c.draft.locals.map Local.shape = [("", some 0)] ∧
      c.enclosing = [])
    (emits : c.Emits ts (bs ++ (OpCode.pushNil.plain ++ OpCode.giveBack.plain)) [] c')
    (finished : c'.heap.object? script = some (.function c'.draft.finish))
    (code : ∀ K : Context, K.Suits c' → Encoding.Declarations K ss bs []) :
    ∃ t constants, c'.heap.Holds (.object script) (.function t constants) ∧
      Encoding.Script ss t constants ∧ ∀ k ∈ constants, k.Compiled := by
  obtain ⟨hname, harity, hdepth, hcode, hlocals, henclosing⟩ := fresh
  have henclosing' : c'.enclosing = [] := by
    have := emits.enclosing
    rw [henclosing] at this
    exact List.forall₂_nil_left_iff.mp this
  obtain ⟨hlines, ⟨constants, hall, hcompiled⟩, ⟨text, hnamed⟩, -, -⟩ :=
    emits.inOrder.drafts _ c'.draft_mem_drafts
  have hname' : c'.draft.name = none := emits.draft.name.trans hname
  have htext : text = none := by
    rw [hname'] at hnamed
    cases text with
    | none => rfl
    | some text => exact hnamed.elim
  subst htext
  have hcaptures : c'.draft.captures = #[] := by
    have hlinked := emits.inOrder.linked
    rw [drafts, henclosing'] at hlinked
    exact hlinked.1
  have settled : c'.draft.Settled := by
    refine emits.draft.settled (Draft.settled_iff.mpr fun s hs => ?_) (by simp)
    rw [hlocals, List.mem_singleton] at hs
    exact ⟨0, Nat.zero_le _, by rw [hs]⟩
  refine ⟨_, constants, (Heap.holds_function_iff finished).mpr ⟨none, constants, rfl, hnamed, hall⟩,
    ⟨rfl, emits.draft.arity.trans harity, ?_, ?_, bs, c'.draft.locals.map Local.variable, ?_, ?_,
    code _ ⟨⟨constants, List.prefix_rfl, hall⟩, ?_, ?_, ?_⟩⟩, hcompiled⟩
  · simp [Function.template, Draft.finish, hcaptures]
  · simpa [Function.template, Draft.finish] using hlines
  · have := emits.draft.code
    rw [hcode] at this
    simpa [Function.template, Draft.finish] using this
  · have := congrArg (List.map Prod.fst) (emits.draft.shapes_eq.trans (by rw [hlocals]))
    simpa [Function.comp_def, Local.shape, Local.variable] using this
  · refine ⟨?_, by simp [Draft.layer, hcaptures]⟩
    simp only [Draft.layer, settled.ready_eq]
    exact Variable.grows_refl _
  · rw [henclosing']
    exact .nil
  · rw [emits.draft.depth, hdepth]
    rfl

/-- Where there are no diagnostics, nothing has been reported. -/
theorem quiet_of_reported {c : Compiler} (none : c.reported.isEmpty = true) : c.Quiet := by
  unfold reported at none
  split at none
  · rename_i halarm
    exact ⟨halarm, Array.isEmpty_iff.mp none⟩
  · simp at none

/-- A program that is compiled without any report. -/
theorem program_spec {steps : Nat} (valid : heap.Valid) (live : ∀ h ∈ held, heap.Live h)
    (final : tokens.final.kind = .endOfInput)
    (pending : ∀ t ∈ tokens.pending, t.kind ≠ .endOfInput)
    (run : program steps (start tokens held heap) = .ok script c') (quiet : c'.Quiet) :
    c'.heap.Valid ∧ heap.Keeps held c'.heap ∧ ∃ ss t constants,
      Grammar.Declarations tokens.pending ss ∧
      c'.heap.Holds (.object script) (.function t constants) ∧
      Encoding.Script ss t constants ∧ ∀ k ∈ constants, k.Compiled := by
  obtain ⟨_, c₁, hadvance, run⟩ := bind_eq_ok_iff.mp run
  obtain ⟨_, c₂, hdeclarations, hfinish⟩ := bind_eq_ok_iff.mp run
  obtain ⟨hquiet, hthird⟩ := finishFunction_spec hfinish quiet
  obtain ⟨hquiet, hsecond⟩ :=
    programDeclarations_spec (statementAt_declarationAt_spec steps).2 hdeclarations hquiet
  obtain ⟨inOrder, hahead, hfirst⟩ := advance_start valid live final pending hadvance hquiet
  have settled : c₁.draft.Settled := by
    rw [hfirst]
    intro l hl
    obtain rfl := List.mem_singleton.mp hl
    exact ⟨0, Nat.le_refl _, rfl⟩
  obtain ⟨mid, ⟨ts, ss, bs, shapes, hparsed, emits, ⟨-, hnone⟩, hcode⟩, hend, reads⟩ :=
    hsecond inOrder settled
  have hdepth : c₁.draft.depth = 0 := by
    rw [hfirst]
    rfl
  obtain rfl := hnone hdepth
  have third := reads.rewind emits.inOrder (hthird (reads.inOrder emits.inOrder)).1
  have hobject := (hthird (reads.inOrder emits.inOrder)).2
  have whole := emits.trans third
  rw [List.append_nil, List.append_nil] at whole
  have hts : ts = tokens.pending := by
    rw [← hahead, emits.ahead]
    simp [ahead, hend]
  have hkeeps : heap.Keeps held c'.heap := by
    have := whole.keeps
    rw [hfirst] at this
    exact this.mono fun h hh => mem_rooted.mpr (.inl hh)
  refine ⟨whole.inOrder.valid, hkeeps, ss, ?_⟩
  obtain ⟨t, constants, holds, hscript⟩ := script_encodes
    (by rw [hfirst]; exact ⟨rfl, rfl, rfl, rfl, rfl, rfl⟩) whole hobject fun K suits =>
      hcode K [] rfl (suits.earlier emits.inOrder third)
  exact ⟨t, constants, hts ▸ hparsed, holds, hscript⟩

end Compiler

/-- An accepted source is a program of the grammar, and the function given back for it encodes
the tree of that program. What the caller holds is still there. -/
theorem compile_sound {tokens : TokenStream} {held : List Handle} {heap heap' : Heap}
    {script : Handle} (terminated : tokens.Terminated) (valid : heap.Valid)
    (live : ∀ h ∈ held, heap.Live h)
    (run : compile tokens held heap = .ok (.ok script) heap') :
    heap'.Valid ∧ heap.Keeps held heap' ∧ ∃ program t constants,
      Grammar.Declarations tokens.pending program ∧
      heap'.Holds (.object script) (.function t constants) ∧
      Encoding.Script program t constants ∧ ∀ k ∈ constants, k.Compiled := by
  unfold compile at run
  split at run
  · rename_i script' c hprogram
    split at run
    · rename_i hnone
      cases run
      exact Compiler.program_spec valid live terminated.final terminated.pending hprogram
        (Compiler.quiet_of_reported hnone)
    · cases run
  · cases run

end Lox
