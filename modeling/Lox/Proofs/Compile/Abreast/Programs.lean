import Lox.Proofs.Compile.Abreast.Statements
import Lox.Proofs.Compile.Acceptance
import Lox.Proofs.Syntax.Derivation

/-!
# The script of two sources

The script of two sources with a newline between them consists of the scripts of both: first the
code of the first one without its end, and then the code of the second one, whose operands that
refer to constants are shifted. The compiler of the whole keeps abreast of the compiler of the first
source up to its end, and from there of the compiler of the second one, which starts from nothing.
There are no locals at that place, and the token consumed last does not matter there.

## Main definitions

* `Forgets` — a step that does not look at the token consumed last.
* `Section` — the script of a piece, and its counterpart in the whole.

## Main results

* `programDeclarations_phase` — the declarations of a piece.
* `compile_joined` — the script of two sources.
-/

namespace Lox

namespace Compiler

variable {S : Setting} {s : Sheet} {c c' d d' : Compiler} {α β : Type} {u u' : Unit}

/-! ### The token consumed last -/

/-- A step that does not look at the token consumed last. -/
def Forgets (x : CompileM α) : Prop := ∀ c t, x { c with previous := t } = x c

theorem Forgets.bind {x : CompileM α} {f : α → CompileM β} (first : Forgets x) :
    Forgets (x >>= f) := fun c t => by
  change EStateM.bind x f _ = EStateM.bind x f c
  unfold EStateM.bind
  rw [first c t]

theorem advance_forgets : Forgets advance := fun _ _ => rfl

/-- A token of a kind is consumed, or else the rest does not look at the token before. -/
theorem accept_forgets {kind : TokenKind} {f : Bool → CompileM α} (rest : Forgets (f false)) :
    Forgets (accept kind >>= f) := fun c t => by
  by_cases hkind : c.current.kind = kind
  · have hsame : accept kind { c with previous := t } = accept kind c :=
      (accept_of_eq (c := { c with previous := t }) hkind rfl).trans (accept_of_eq hkind rfl).symm
    change EStateM.bind _ f _ = EStateM.bind _ f c
    unfold EStateM.bind
    rw [hsame]
  · rw [bind_of_ok (accept_of_ne hkind), bind_of_ok
      (accept_of_ne (c := { c with previous := t }) hkind)]
    exact rest c t

theorem expressionStatement_forgets (steps : Nat) :
    Forgets (expressionStatement (expression (steps + 1))) :=
  .bind (advance_forgets.bind : Forgets (expressionAt (steps + 1) .assignment))

theorem statementWith_forgets (steps : Nat) (inner statement : CompileM Unit) :
    Forgets (statementWith (expression (steps + 1)) inner statement) :=
  accept_forgets <| accept_forgets <| accept_forgets <| accept_forgets <| accept_forgets <|
    accept_forgets (expressionStatement_forgets steps)

/-- A declaration does not look at the token before it. -/
theorem declarationAt_forgets (steps : Nat) : Forgets (declarationAt (steps + 1)) := by
  rw [declarationAt]
  exact accept_forgets (accept_forgets (statementWith_forgets steps _ _).bind)

theorem programDeclarations_forgets (steps n : Nat) :
    Forgets (programDeclarations (declarationAt (steps + 1)) (n + 1)) :=
  accept_forgets (declarationAt_forgets steps).bind

/-! ### Declarations of a piece -/

/-- At the end of the input there are no declarations. -/
theorem programDeclarations_ended {item : CompileM Unit} {m : Nat} (fed : c.Fed)
    (ended : c.current.kind = .endOfInput) (run : programDeclarations item m c = .ok u c')
    (quiet : c'.Quiet) : Reads c c' := by
  cases m with
  | zero => cases run
  | succ m =>
      rw [programDeclarations] at run
      rcases accept_cases run with ⟨-, mid, hadvance, hdone⟩ | ⟨hother, -⟩
      · cases hdone
        exact (advance_reads hadvance quiet).2 fed.final fed.pending
      · exact absurd ended hother

/-- The declarations of a piece, and those of the whole up to the same place. -/
theorem programDeclarations_phase {n n' m m' : Nat} (abreast : Abreast S [] ⟨0, 1⟩ s c d)
    (run : programDeclarations (declarationAt n) m c = .ok u c')
    (run' : programDeclarations (declarationAt n') m' d = .ok u' d') (quiet : c'.Quiet)
    (quiet' : d'.Quiet) :
    ∃ s₁ c₁ d₁ m₁, Abreast S [] ⟨0, 1⟩ s₁ c₁ d₁ ∧ c₁.current.kind = .endOfInput ∧
      Reads c₁ c' ∧ programDeclarations (declarationAt n') m₁ d₁ = .ok u' d' := by
  induction m generalizing m' s c d with
  | zero => cases run
  | succ m ih =>
      by_cases hended : c.current.kind = .endOfInput
      · exact ⟨s, c, d, m', abreast, hended,
          programDeclarations_ended abreast.tame.fed hended run quiet, run'⟩
      · have hended' : d.current.kind ≠ .endOfInput := by
          rw [(abreast.current hended).kind]
          exact hended
        cases m' with
        | zero => cases run'
        | succ m' =>
            have hpart := statementAt_declarationAt_pace (S := S) n n'
            rw [programDeclarations, bind_of_ok (accept_of_ne hended)] at run
            rw [programDeclarations, bind_of_ok (accept_of_ne hended')] at run'
            obtain ⟨_, c₁, hfirst, hothers⟩ := bind_eq_ok_iff.mp run
            obtain ⟨_, d₁, hfirst', hothers'⟩ := bind_eq_ok_iff.mp run'
            have hquiet := (Reports.throughout.programDeclarations
              (statementAt_declarationAt_reports n).2).quiet hothers quiet
            have hquiet' := (Reports.throughout.programDeclarations
              (statementAt_declarationAt_reports n').2).quiet hothers' quiet'
            obtain ⟨s₁, -, habreast, -⟩ | ⟨hfalse, -⟩ := (hpart.2 [] 0 (.plain True)).meets s c d
              abreast trivial _ _ _ _ hfirst hfirst' hquiet hquiet'
            · exact ih habreast hothers hothers'
            · cases hfalse

/-- Where the piece has ended, the whole goes on with what follows. -/
theorem Abreast.follows (abreast : Abreast S [] ⟨0, 1⟩ s c d)
    (ended : c.current.kind = .endOfInput) : List.Forall₂ Token.Like S.tail d.ahead := by
  have hahead := abreast.ahead
  rwa [show c.ahead = [] from if_pos ended, List.nil_append] at hahead

/-- Where nothing is ahead, the input has ended. -/
theorem ended_of_ahead (none : d.ahead = []) : d.current.kind = .endOfInput := by
  unfold ahead at none
  split at none
  · assumption
  · cases none

/-! ### The end of a script -/

/-- The bytes at the end of a script. -/
def scriptEnd : List UInt8 := OpCode.pushNil.plain ++ OpCode.giveBack.plain

theorem Tame.reads (tame : c.Tame) (reads : Reads c c') : c'.Tame := by
  have hrest := reads.rest
  refine ⟨reads.fed, ?_, ?_⟩
  · rw [hrest]
    exact tame.valid
  · rw [hrest]
    exact tame.live

theorem Tame.writes {bs : List UInt8} (tame : c.Tame) (writes : c.Writes bs c') : c'.Tame := by
  have hrest := writes.rest
  refine ⟨tame.fed.congr ?_ ?_, ?_, ?_⟩
  · rw [hrest]
  · rw [hrest]
  · rw [hrest]
    exact tame.valid
  · rw [hrest]
    exact tame.live

/-- A finished script resolves to its code and its constants. -/
theorem Tame.script {h : Handle} (tame : c.Tame) (ks : List Constant) (named : c.draft.name = none)
    (holds : c.heap.HoldsAll c.draft.chunk.constants ks) (run : finishFunction c = .ok h c') :
    ∃ line, c'.heap.Holds (.object h) (.function ⟨c.draft.arity, c.draft.captures.size, none,
      c.draft.chunk.code.toList ++ scriptEnd,
      c.draft.chunk.lines.toList ++ List.replicate scriptEnd.length line⟩ ks) := by
  obtain ⟨mid, heap, hreturn, rfl, halloc⟩ := finishFunction_cases run
  obtain ⟨_, c₁, hnil, hback⟩ := bind_eq_ok_iff.mp hreturn
  have hwrites := (emit_writes hnil).trans (emit_writes hback)
  have htame := tame.writes hwrites
  obtain ⟨-, hkeeps, hfound⟩ := htame.allocate halloc
  have hrest := hwrites.rest
  have hheap : mid.heap = c.heap := by rw [hrest]
  have hconstants : mid.draft.chunk.constants = c.draft.chunk.constants := by rw [hrest]
  have hname : mid.draft.name = none := by
    rw [hrest]
    exact named
  have hlater : heap.HoldsAll mid.draft.chunk.constants ks := by
    refine (hconstants ▸ hheap ▸ holds : mid.heap.HoldsAll _ ks).imp fun v hv k hk =>
      hk.later hkeeps ?_
    rintro g rfl
    exact .root (mem_rooted.mpr (.inr ⟨_, mid.draft_mem_drafts, Draft.mem_handles.mpr (.inr hv)⟩))
  refine ⟨c.previous.line, (Heap.holds_function_iff hfound).mpr ⟨none, ks, ?_, ?_, hlater⟩⟩
  · have hcode := hwrites.code
    have hlines := hwrites.lines
    have harity : mid.draft.arity = c.draft.arity := by rw [hrest]
    have hcaptures : mid.draft.captures = c.draft.captures := by rw [hrest]
    simp only [Function.template, Draft.finish, hcode, hlines, harity, hcaptures]
    rfl
  · rw [show mid.draft.finish.name = none from hname]
    trivial

/-! ### The beginning of a piece -/

/-- A compiler that has written nothing yet. -/
structure Fresh (c : Compiler) : Prop where
  draft : c.draft = { name := none, isScript := true }
  enclosing : c.enclosing = []

/-- A compiler of the whole between two declarations of the script. -/
structure Between (F : Front) (d : Compiler) : Prop where
  rest : d.draft = { name := none, isScript := true, chunk := d.draft.chunk }
  enclosing : d.enclosing = []
  code : d.draft.chunk.code.toList = F.code
  constants : d.heap.HoldsAll d.draft.chunk.constants F.constants

theorem Fresh.between (fresh : c.Fresh) : c.Between {} := by
  obtain ⟨hdraft, henclosing⟩ := fresh
  refine ⟨?_, henclosing, ?_, ?_⟩
  · rw [hdraft]
  · rw [hdraft]
  · rw [hdraft]
    exact .nil

/-- A compiler that starts from nothing is abreast of one between two declarations that has the same
tokens ahead. -/
theorem Fresh.abreast (fresh : c.Fresh) (between : d.Between S.front) (quiet : c.Quiet)
    (quiet' : d.Quiet) (tame : c.Tame) (tame' : d.Tame)
    (ahead : List.Forall₂ Token.Like (c.ahead ++ S.tail) d.ahead)
    (previous : c.previous.Like d.previous) (worded : ∀ t ∈ c.previous :: c.ahead, t.Worded) :
    Abreast S [] ⟨0, 1⟩ {} c d := by
  obtain ⟨hdraft, henclosing⟩ := fresh
  obtain ⟨hrest, henclosing', hcode, hconstants⟩ := between
  refine ⟨quiet, quiet', tame, tame', ahead, previous, worded, ?_⟩
  have habreast : c.draft.Abreast S.front ⟨0, 1⟩ {} c.heap d.heap d.draft := by
    rw [hdraft, hrest]
    exact {
      name := ⟨none, trivial, trivial⟩, isScript := rfl, arity := rfl, locals := rfl
      captures := rfl, depth := rfl, depth' := rfl, enough := Nat.le_refl _, constants := .nil
      constants' := ⟨[], by rwa [List.append_nil], .nil⟩
      code := ⟨[], by rw [hcode, List.append_nil], .nil⟩
      lines := .nil, lined := fun k hk => by cases hk
      callee := rfl, room := (by decide : 1 ≤ 256), proper := fun x hx => by cases hx
      endless := fun _ entry hentry => by cases hentry }
  unfold drafts
  rw [henclosing, henclosing']
  exact .cons habreast (by rw [hdraft]; rfl) .nil

variable {tokens : TokenStream} {held : List Handle} {heap : Heap} {script : Handle} {steps : Nat}

/-- The course of a compilation that reports nothing. -/
structure Course (tokens : TokenStream) (steps : Nat) (script : Handle) (c' : Compiler)
    (first last : Compiler) : Prop where
  fresh : first.Fresh
  quiet : first.Quiet
  inOrder : first.InOrder
  ahead : first.ahead = tokens.pending
  previous : first.previous = ⟨.endOfInput, "", 1⟩
  declarations : programDeclarations (declarationAt steps) steps first = .ok () last
  quietLast : last.Quiet
  finish : finishFunction last = .ok script c'

/-- Every program that is compiled without any report takes such a course. -/
theorem program_course (terminated : tokens.Terminated) (valid : heap.Valid)
    (live : ∀ h ∈ held, heap.Live h) (run : program steps (start tokens held heap) = .ok script c')
    (quiet : c'.Quiet) : ∃ first last, Course tokens steps script c' first last := by
  obtain ⟨_, c₁, hadvance, run⟩ := bind_eq_ok_iff.mp run
  obtain ⟨_, c₂, hdeclarations, hfinish⟩ := bind_eq_ok_iff.mp run
  have hquiet₂ := (show Reports true finishFunction from Reports.throughout.finishFunction).quiet
    hfinish quiet
  have hquiet₁ := (Reports.throughout.programDeclarations
    (statementAt_declarationAt_reports steps).2).quiet hdeclarations hquiet₂
  obtain ⟨inOrder, hahead, hfirst⟩ := advance_start valid live terminated.final
    terminated.pending hadvance hquiet₁
  have hprevious := advance_previous hadvance
  refine ⟨c₁, c₂, ⟨?_, ?_⟩, hquiet₁, inOrder, hahead, hprevious, hdeclarations, hquiet₂, hfinish⟩
  · rw [hfirst]
    rfl
  · rw [hfirst]
    rfl

variable {first last : Compiler}

theorem Course.tame (course : Course tokens steps script c' first last) : first.Tame :=
  ⟨course.inOrder.fed, course.inOrder.valid, course.inOrder.live⟩

/-- Nothing is left of the declarations of a script but code and constants. -/
theorem Course.bare (course : Course tokens steps script c' first last) :
    last.draft.name = none ∧ last.draft.arity = 0 ∧ last.draft.captures = #[] ∧
      last.draft.locals.length = 1 := by
  obtain ⟨hdraft, henclosing⟩ := course.fresh
  obtain ⟨-, hspec⟩ := programDeclarations_spec (statementAt_declarationAt_spec steps).2
    course.declarations course.quietLast
  have settled : first.draft.Settled := by
    rw [hdraft]
    intro l hl
    obtain rfl := List.mem_singleton.mp hl
    exact ⟨0, Nat.le_refl _, rfl⟩
  obtain ⟨mid, ⟨ts, ss, bs, shapes, -, emits, ⟨-, hnone⟩, -⟩, -, reads⟩ :=
    hspec course.inOrder settled
  obtain rfl := hnone (by rw [hdraft])
  have hlast : last.draft = mid.draft := by rw [reads.rest]
  have henclosing' : mid.enclosing = [] := by
    have := emits.enclosing
    rw [henclosing] at this
    exact List.forall₂_nil_left_iff.mp this
  rw [hlast]
  refine ⟨emits.draft.name.trans (by rw [hdraft]), emits.draft.arity.trans (by rw [hdraft]), ?_, ?_⟩
  · have hlinked := emits.inOrder.linked
    rw [drafts, henclosing'] at hlinked
    exact hlinked.1
  · obtain ⟨new, old, hlocals, hnew, hold⟩ := emits.draft.locals
    rw [List.map_eq_nil_iff.mp hnew, List.nil_append] at hlocals
    rw [hlocals, ← hold.length_eq, hdraft]
    rfl

/-- Behind the declarations of a script the next ones may start. -/
theorem Abreast.between (abreast : Abreast S [] ⟨0, 1⟩ s c d) (name : c.draft.name = none)
    (arity : c.draft.arity = 0) (captures : c.draft.captures = #[])
    (single : c.draft.locals.length = 1) :
    ∃ ks, List.Forall₂ Constant.Kin s.constants ks ∧
      d.Between ⟨d.draft.chunk.code.toList, S.front.constants ++ ks⟩ := by
  have hdraft := abreast.draft
  obtain ⟨ks, hconstants, hkin⟩ := hdraft.constants'
  obtain ⟨text, hnamed, hnamed'⟩ := hdraft.name
  have hlocals : c.draft.locals = [⟨"", some 0, false⟩] := by
    obtain ⟨l, hl⟩ := List.length_eq_one_iff.mp single
    have hcallee := hdraft.callee
    rw [hl, List.getLast?_singleton, Option.some.injEq] at hcallee
    rw [hl, hcallee]
  have hname' : d.draft.name = none := by
    rw [name] at hnamed
    cases text with
    | none =>
        cases hd : d.draft.name with
        | none => rfl
        | some h =>
            rw [hd] at hnamed'
            exact hnamed'.elim
    | some text => exact hnamed.elim
  have henclosing := abreast.enclosing
  refine ⟨ks, hkin, ⟨?_, ?_, rfl, hconstants⟩⟩
  · have hscript : d.draft.isScript = true := hdraft.isScript.trans abreast.isScript
    calc d.draft = ⟨d.draft.name, d.draft.isScript, d.draft.arity, d.draft.chunk, d.draft.locals,
          d.draft.captures, d.draft.depth⟩ := rfl
      _ = { name := none, isScript := true, chunk := d.draft.chunk } := by
          rw [hname', hscript, hdraft.arity, arity, hdraft.locals,
            hlocals, hdraft.captures, captures,
            hdraft.depth']
  · generalize c.enclosing = xs at henclosing
    generalize d.enclosing = ys at henclosing ⊢
    cases henclosing
    rfl

end Compiler

/-! ### Two sources -/

/-- A source is compiled to a function with constants. -/
def Produces (source : String) (t : Template) (constants : List Constant) : Prop :=
  ∃ held heap script heap', heap.Valid ∧ (∀ h ∈ held, heap.Live h) ∧
    compile (.ofSource source) held heap = .ok (.ok script) heap' ∧
    heap'.Holds (.object script) (.function t constants)

/-- The script of a piece, and its code and its constants where other ones stand in front. -/
structure Section (shift : Nat) (outline : Outline) (t : Template) (constants : List Constant)
    (code' : List UInt8) (constants' : List Constant) : Prop where
  code : ∃ body, t.code = body ++ Compiler.scriptEnd ∧ Laid shift constants outline body code'
  kin : List.Forall₂ Constant.Kin constants constants'
  endless : ∀ entry ∈ outline, entry.1 ≠ .giveBack

variable {a b : String} {t : Template} {constants : List Constant}

/-- The course of a compilation that is accepted. -/
theorem Produces.course (produces : Produces a t constants) :
    ∃ heap script c' first last, Compiler.Course (.ofSource a)
      ((TokenStream.ofSource a).pending.length + 2)
      script c' first last ∧ heap = c'.heap ∧ heap.Holds (.object script)
        (.function t constants) := by
  obtain ⟨held, heap, script, heap', hvalid, hlive, hrun, hholds⟩ := produces
  unfold compile at hrun
  split at hrun
  · rename_i script' c' hprogram
    split at hrun
    · rename_i hnone
      cases hrun
      obtain ⟨first, last, hcourse⟩ := Compiler.program_course (terminated_ofSource a) hvalid hlive
        hprogram (Compiler.quiet_of_reported hnone)
      exact ⟨_, script, c', first, last, hcourse, rfl, hholds⟩
    · cases hrun
  · cases hrun

/-- An accepted source is compiled to a script with one line for each instruction, and so are all
its functions. For this its compiler is taken for that of the piece and for that of the whole. -/
theorem Produces.lined (produces : Produces a t constants) :
    (Constant.function t constants).Lined := by
  obtain ⟨heap, script, e, first, last, course, rfl, hholds⟩ := produces.course
  have hstart : Compiler.Abreast ⟨{}, [], fun x hx => by cases hx⟩ [] ⟨0, 1⟩ {} first first := by
    refine course.fresh.abreast course.fresh.between course.quiet course.quiet course.tame
      course.tame ?_ (.refl _) ?_
    · rw [List.append_nil]
      exact List.forall₂_same.mpr fun x _ => .refl x
    · rw [course.previous, course.ahead]
      exact List.forall_mem_cons.mpr ⟨fun h => (by cases h), worded_ofSource a⟩
  obtain ⟨s, c, d, m, habreast, -, hreads, -⟩ := Compiler.programDeclarations_phase hstart
    course.declarations course.declarations course.quietLast course.quietLast
  obtain ⟨hname, -⟩ := course.bare
  have hlast : last.draft = c.draft := by rw [hreads.rest]
  have hheap : last.heap = c.heap := by rw [hreads.rest]
  have hdraft := habreast.draft
  obtain ⟨rest, -, hlaid⟩ := hdraft.code
  obtain ⟨line, hscript⟩ := (habreast.tame.reads hreads).script s.constants hname
    (by rw [hlast, hheap]; exact hdraft.constants) course.finish
  cases hholds.unique hscript
  rw [hlast]
  have hend : Laid 0 s.constants ([(.pushNil, 1)] ++ [(.giveBack, 1)]) Compiler.scriptEnd
      Compiler.scriptEnd :=
    (Laid.single (.plain rfl)).append (.single (.plain rfl))
  refine .function ⟨_, hlaid.alone.append hend, hdraft.lines.append ?_⟩ hdraft.lined
  exact (Outline.Lined.single .pushNil 1 line).append (.single .giveBack 1 line)

namespace Grammar

/-- No rule names a malformed token. -/
theorem rules_proper (n : Nonterminal) : ∀ rule ∈ rules n, Symbol.token .malformed ∉ rule := by
  cases n with
  | expression level => cases level <;> decide
  | _ => decide

/-- What can be derived has no malformed token. -/
theorem Derives.proper {row : List Symbol} {kinds : List TokenKind} (derives : Derives row kinds)
    (clean : Symbol.token .malformed ∉ row) : .malformed ∉ kinds := by
  induction derives with
  | nil => exact List.not_mem_nil
  | token _ ih =>
      rw [List.mem_cons, not_or] at clean ⊢
      exact ⟨fun h => clean.1 (congrArg _ h), ih clean.2⟩
  | part member _ _ ihRule ihOthers =>
      rw [List.mem_append, not_or]
      exact ⟨ihRule (rules_proper _ _ member), ihOthers fun h => clean (List.mem_cons_of_mem _ h)⟩

/-- No declarations start with the word for another branch. -/
theorem Declarations.calm {ts : List Token} {ss : List Stmt} (parsed : Declarations ts ss) :
    ∀ x ∈ ts.head?, x.kind ≠ .elseWord := by
  cases parsed with
  | nil => exact fun x hx => by cases hx
  | cons first others =>
      obtain ⟨kind, ls, hkinds, hstarts⟩ := (declaration_derives first).starts (by decide)
      obtain ⟨y, ys, rfl, rfl, -⟩ := List.map_eq_cons_iff.mp hkinds
      rintro x ⟨⟩ hkind
      rw [hkind] at hstarts
      cases hstarts

end Grammar

/-- The tokens of an accepted source. -/
theorem Produces.tokens (produces : Produces a t constants) :
    (∀ x ∈ (TokenStream.ofSource a).pending, x.kind ≠ .malformed) ∧
      ∀ x ∈ (TokenStream.ofSource a).pending.head?, x.kind ≠ .elseWord := by
  obtain ⟨held, heap, script, heap', hvalid, hlive, hrun, hholds⟩ := produces
  obtain ⟨-, -, program, -, -, hparsed, -⟩ :=
    compile_sound (terminated_ofSource a) hvalid hlive hrun
  have hderives := Grammar.declarations_derives hparsed
  exact ⟨fun x hx hkind => hderives.proper (by decide) (hkind ▸ List.mem_map_of_mem hx),
    hparsed.calm⟩

/-- The script of two sources consists of the scripts of both. -/
theorem compile_joined {t₁ t₂ : Template} {ks₁ ks₂ : List Constant} (first : Produces a t₁ ks₁)
    (second : Produces b t₂ ks₂) (whole : Produces (a ++ "\n" ++ b) t constants) :
    ∃ outline₁ outline₂ code₁ code₂ ks₁' ks₂', Section 0 outline₁ t₁ ks₁ code₁ ks₁' ∧
      Section ks₁'.length outline₂ t₂ ks₂ code₂ ks₂' ∧
      t.code = code₁ ++ code₂ ++ Compiler.scriptEnd ∧ constants = ks₁' ++ ks₂' := by
  obtain ⟨later, hpending, hlater⟩ := ofSource_joined (b := b) first.tokens.1
  have hcalm : ∀ x ∈ later.head?, x.kind ≠ .elseWord := by
    intro x hx
    obtain ⟨others, rfl⟩ := List.head?_eq_some_iff.mp hx
    obtain ⟨y, ys, hlike, -, hy⟩ := List.forall₂_cons_right_iff.mp hlater
    rw [hlike.kind]
    exact second.tokens.2 y (by rw [hy]; rfl)
  obtain ⟨heap₁, script₁, e₁, f₁, l₁, course₁, rfl, hholds₁⟩ := first.course
  obtain ⟨heap₂, script₂, e₂, f₂, l₂, course₂, rfl, hholds₂⟩ := second.course
  obtain ⟨heap, script, e, f, l, course, rfl, hholds⟩ := whole.course
  -- the first source, with the tokens of the second one behind it
  have hstart : Compiler.Abreast ⟨{}, later, hcalm⟩ [] ⟨0, 1⟩ {} f₁ f := by
    refine course₁.fresh.abreast course.fresh.between course₁.quiet course.quiet course₁.tame
      course.tame ?_ ?_ ?_
    · rw [course₁.ahead, course.ahead, hpending]
      exact List.forall₂_same.mpr fun x _ => .refl x
    · rw [course₁.previous, course.previous]
      exact .refl _
    · rw [course₁.previous, course₁.ahead]
      exact List.forall_mem_cons.mpr ⟨fun h => (by cases h), worded_ofSource a⟩
  obtain ⟨s₁, c₁, d₁, m₁, habreast₁, hended₁, hreads₁, hrest₁⟩ :=
    Compiler.programDeclarations_phase hstart course₁.declarations course.declarations
      course₁.quietLast course.quietLast
  obtain ⟨hname₁, harity₁, hcaptures₁, hlocals₁⟩ := course₁.bare
  have hlast₁ : l₁.draft = c₁.draft := by rw [hreads₁.rest]
  have hheap₁ : l₁.heap = c₁.heap := by rw [hreads₁.rest]
  rw [hlast₁] at hname₁ harity₁ hcaptures₁ hlocals₁
  obtain ⟨ks₁', hkin₁, hbetween⟩ := habreast₁.between hname₁ harity₁ hcaptures₁ hlocals₁
  -- the second source, whose compiler starts anew
  have hturn : Compiler.Abreast ⟨⟨d₁.draft.chunk.code.toList, [] ++ ks₁'⟩, [], fun x hx =>
    by cases hx⟩
      [] ⟨0, 1⟩ {} f₂ { d₁ with previous := f₂.previous } := by
    refine course₂.fresh.abreast ⟨hbetween.rest, hbetween.enclosing, hbetween.code,
      hbetween.constants⟩ course₂.quiet ⟨habreast₁.quiet'.alarm, habreast₁.quiet'.diagnostics⟩
      course₂.tame ?_ ?_ (.refl _) ?_
    · exact ⟨habreast₁.tame'.fed.congr rfl rfl, habreast₁.tame'.valid, habreast₁.tame'.live⟩
    · rw [course₂.ahead, List.append_nil]
      exact forall₂_trans (fun _ _ _ => .trans) hlater (habreast₁.follows hended₁)
    · rw [course₂.previous, course₂.ahead]
      exact List.forall_mem_cons.mpr ⟨fun h => (by cases h), worded_ofSource b⟩
  have hrest₂ : Compiler.programDeclarations
      (Compiler.declarationAt ((TokenStream.ofSource (a ++ "\n" ++ b)).pending.length + 2)) m₁
      { d₁ with previous := f₂.previous } = .ok () l := by
    cases m₁ with
    | zero => cases hrest₁
    | succ m₁ => exact (Compiler.programDeclarations_forgets _ _ _ _).trans hrest₁
  obtain ⟨s₂, c₂, d₂, m₂, habreast₂, hended₂, hreads₂, hlast⟩ :=
    Compiler.programDeclarations_phase hturn course₂.declarations hrest₂ course₂.quietLast
      course.quietLast
  have hended : d₂.current.kind = .endOfInput :=
    Compiler.ended_of_ahead (List.forall₂_nil_left_iff.mp (habreast₂.follows hended₂))
  have hreads : Compiler.Reads d₂ l :=
    Compiler.programDeclarations_ended habreast₂.tame'.fed hended hlast course.quietLast
  obtain ⟨hname₂, -⟩ := course₂.bare
  have hlast₂ : l₂.draft = c₂.draft := by rw [hreads₂.rest]
  have hheap₂ : l₂.heap = c₂.heap := by rw [hreads₂.rest]
  have hlast : l.draft = d₂.draft := by rw [hreads.rest]
  have hheap : l.heap = d₂.heap := by rw [hreads.rest]
  have hdraft₁ := habreast₁.draft
  have hdraft₂ := habreast₂.draft
  obtain ⟨ks₂', hconstants, hkin₂⟩ := hdraft₂.constants'
  obtain ⟨code₁, hcode₁, hlaid₁⟩ := hdraft₁.code
  obtain ⟨code₂, hcode₂, hlaid₂⟩ := hdraft₂.code
  obtain ⟨line₁, hscript₁⟩ := (habreast₁.tame.reads hreads₁).script s₁.constants
    (by rw [hlast₁, hname₁]) (by rw [hlast₁, hheap₁]; exact hdraft₁.constants) course₁.finish
  obtain ⟨line₂, hscript₂⟩ := (habreast₂.tame.reads hreads₂).script s₂.constants hname₂
    (by rw [hlast₂, hheap₂]; exact hdraft₂.constants) course₂.finish
  obtain ⟨line, hscript⟩ := (habreast₂.tame'.reads hreads).script _
    course.bare.1 (by rw [hlast, hheap]; exact hconstants) course.finish
  cases hholds₁.unique hscript₁
  cases hholds₂.unique hscript₂
  cases hholds.unique hscript
  refine ⟨s₁.outline, s₂.outline, code₁, code₂, ks₁', ks₂', ⟨⟨_, ?_, hlaid₁⟩, hkin₁, ?_⟩,
    ⟨⟨_, ?_, hlaid₂⟩, hkin₂, ?_⟩, ?_, ?_⟩
  · rw [hlast₁]
  · exact hdraft₁.endless habreast₁.isScript
  · rw [hlast₂]
  · exact hdraft₂.endless habreast₂.isScript
  · rw [hlast, hcode₂, hcode₁]
    rfl
  · rfl

end Lox
