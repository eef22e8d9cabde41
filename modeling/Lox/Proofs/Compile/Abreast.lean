import Lox.Proofs.Code.Lines
import Lox.Proofs.Compile.Programs
import Lox.Proofs.Compile.Reports
import Lox.Proofs.Token.Joining

/-!
# Compiling a piece and a whole

A piece of a source may be compiled by itself or as a part of the whole. Two compilers then read
the same tokens: the one of the piece ends where its tokens end, and the one of the whole goes on
with the tokens of what follows. In the whole, the code and the constants of what precedes stand in
front of those of the piece, in the script, and nowhere else.

The two compilers keep *abreast* as long as neither of them reports anything. What the code of the
piece consists of is noted on *sheets*, one for each function that is being compiled: the
instructions written so far and the constants so far. Sheets only ever grow, so what is known of a
sheet once is known of it from then on.

The compiler of the piece comes to the end of its input only behind a whole statement. Where that
may happen a step is said to *close*; any other step that comes to the end of the input stays there,
and the piece will not be accepted.

## Main definitions

* `Setting` — what stands in front of a piece, and the tokens behind it.
* `Sheet`, `Sheet.Fact` — what has been written, and what is known of it.
* `Compiler.Abreast` — two compilers that keep abreast.
* `Compiler.Pace` — a step that keeps them abreast.

## Main results

* `Pace.bind`, `Pace.into` — steps one after another.
-/

namespace Lox

/-- What stands in front of the code and the constants of a draft. -/
structure Front where
  code : List UInt8 := []
  constants : List Constant := []

/-- Where a piece of a source stands: what precedes it in the script, and the tokens that follow. -/
structure Setting where
  front : Front
  tail : List Token
  /-- What follows does not go on with the last statement. -/
  calm : ∀ t ∈ tail.head?, t.kind ≠ .elseWord

/-! ### Sheets -/

/-- The instructions and the constants that a draft of a piece consists of. -/
structure Sheet where
  outline : Outline := []
  constants : List Constant := []

namespace Sheet

/-- A later sheet of the same draft. -/
structure Grows (s s' : Sheet) : Prop where
  outline : s.outline <+: s'.outline
  constants : s.constants <+: s'.constants

theorem Grows.refl (s : Sheet) : s.Grows s := ⟨List.prefix_rfl, List.prefix_rfl⟩

theorem Grows.trans {s s' s'' : Sheet} (first : s.Grows s') (second : s'.Grows s'') : s.Grows s'' :=
  ⟨first.outline.trans second.outline, first.constants.trans second.constants⟩

/-- What is known of a sheet and of all later ones. -/
structure Fact where
  holds : Sheet → Prop
  stays : ∀ s s', s.Grows s' → holds s → holds s'

namespace Fact

/-- Nothing is known of the sheet. -/
def plain (p : Prop) : Fact := ⟨fun _ => p, fun _ _ _ => id⟩

/-- Two facts. -/
def and (p q : Fact) : Fact :=
  ⟨fun s => p.holds s ∧ q.holds s, fun s s' grows =>
    And.imp (p.stays s s' grows) (q.stays s s' grows)⟩

/-- The operand of a jump is at an offset of a piece, and at another one of the whole. -/
def hole (F : Front) (i j : Nat) : Fact :=
  ⟨fun s => j = F.code.length + i ∧ s.outline.Holes i, fun _ _ grows =>
    And.imp_right fun holes => holes.mono grows.outline⟩

/-- A constant is at one index in a piece, and at another one in the whole. -/
def stored (F : Front) (k : Constant) (i j : UInt8) : Fact :=
  ⟨fun s => j.toNat = F.constants.length + i.toNat ∧ s.constants[i.toNat]? = some k,
    fun _ _ grows => And.imp_right (getElem?_mono grows.constants)⟩

/-- Some constant is known under one operand in a piece, and under another one in the whole. -/
def pooled (F : Front) (i j : UInt8) : Fact :=
  ⟨fun s => j.toNat = F.constants.length + i.toNat ∧ i.toNat < s.constants.length,
    fun _ _ grows => And.imp_right fun lt => lt.trans_le grows.constants.length_le⟩

theorem pooled_of_stored {F : Front} {k : Constant} {i j : UInt8} {s : Sheet}
    (holds : (stored F k i j).holds s) : (pooled F i j).holds s :=
  holds.imp_right fun found => (List.getElem?_eq_some_iff.mp found).1

end Fact

end Sheet

/-! ### Drafts -/

/-- A place in the scopes of a draft. -/
structure Spot where
  /-- How many scopes are open. -/
  depth : Nat
  /-- How many locals there are at least. -/
  locals : Nat := 1

/-- A draft of a piece and the same draft of the whole, at a given place. -/
structure Draft.Abreast (F : Front) (p : Spot) (s : Sheet) (heap heap' : Heap) (d e : Draft) :
    Prop where
  name : ∃ text, heap.Named d.name text ∧ heap'.Named e.name text
  isScript : e.isScript = d.isScript
  arity : e.arity = d.arity
  locals : e.locals = d.locals
  captures : e.captures = d.captures
  depth : d.depth = p.depth
  depth' : e.depth = p.depth
  enough : p.locals ≤ d.locals.length
  constants : heap.HoldsAll d.chunk.constants s.constants
  constants' : ∃ ks, heap'.HoldsAll e.chunk.constants (F.constants ++ ks) ∧
    List.Forall₂ Constant.Kin s.constants ks
  code : ∃ rest, e.chunk.code.toList = F.code ++ rest ∧
    Laid F.constants.length s.constants s.outline d.chunk.code.toList rest
  lines : s.outline.Lined d.chunk.lines.toList
  lined : ∀ k ∈ s.constants, k.Lined
  /-- The function itself has no name that a variable can have. -/
  callee : d.locals.getLast? = some ⟨"", some 0, false⟩
  room : d.locals.length ≤ Draft.maxLocals
  proper : ∀ c ∈ d.captures.toList, c.Proper
  /-- The script does not return. -/
  endless : d.isScript = true → ∀ entry ∈ s.outline, entry.1 ≠ .giveBack

/-- What precedes a draft: something in the script only. -/
def Setting.at (S : Setting) : (around : List (Spot × Sheet)) → Front
  | [] => S.front
  | _ :: _ => {}

/-- The drafts of a piece and those of the whole, innermost first, with the place and the sheet of
each. -/
inductive Stacked (S : Setting) (heap heap' : Heap) :
    List (Spot × Sheet) → List Draft → List Draft → Prop
  | nil : Stacked S heap heap' [] [] []
  | cons {p : Spot} {s : Sheet} {d e : Draft} {around : List (Spot × Sheet)} {ds es : List Draft} :
      d.Abreast (S.at around) p s heap heap' e → d.isScript = around.isEmpty →
      Stacked S heap heap' around ds es →
        Stacked S heap heap' ((p, s) :: around) (d :: ds) (e :: es)

namespace Draft.Abreast

variable {F : Front} {p : Spot} {s : Sheet} {heap heap' new new' : Heap} {d e : Draft}
  {roots roots' : List Handle}

/-- The first of two drafts in a later heap. -/
theorem later (abreast : d.Abreast F p s heap heap' e) (keeps : heap.Keeps roots new)
    (rooted : ∀ h ∈ d.handles, h ∈ roots) (keeps' : heap'.Keeps roots' new')
    (rooted' : ∀ h ∈ e.handles, h ∈ roots') : d.Abreast F p s new new' e := by
  obtain ⟨text, hname, hname'⟩ := abreast.name
  obtain ⟨ks, hconstants', hkin⟩ := abreast.constants'
  refine { abreast with
    name := ⟨text, hname.later keeps fun g hg => .root (rooted g (mem_handles.mpr (.inl hg))),
      hname'.later keeps' fun g hg => .root (rooted' g (mem_handles.mpr (.inl hg)))⟩
    constants := abreast.constants.imp fun v hv k hk => hk.later keeps ?_
    constants' := ⟨ks, hconstants'.imp fun v hv k hk => hk.later keeps' ?_, hkin⟩ }
  · rintro g rfl
    exact .root (rooted g (mem_handles.mpr (.inr hv)))
  · rintro g rfl
    exact .root (rooted' g (mem_handles.mpr (.inr hv)))

end Draft.Abreast

/-- All drafts in later heaps. -/
theorem Stacked.later {S : Setting} {heap heap' new new' : Heap} {sheets : List (Spot × Sheet)}
    {ds es : List Draft} {roots roots' : List Handle} (stacked : Stacked S heap heap' sheets ds es)
    (keeps : heap.Keeps roots new) (rooted : ∀ d ∈ ds, ∀ h ∈ d.handles, h ∈ roots)
    (keeps' : heap'.Keeps roots' new') (rooted' : ∀ e ∈ es, ∀ h ∈ e.handles, h ∈ roots') :
    Stacked S new new' sheets ds es := by
  induction stacked with
  | nil => exact .nil
  | cons hdraft hscript _ ih =>
      refine .cons (hdraft.later keeps (rooted _ (List.mem_cons_self ..)) keeps'
        (rooted' _ (List.mem_cons_self ..))) hscript (ih ?_ ?_)
      · exact fun d hd => rooted d (List.mem_cons_of_mem _ hd)
      · exact fun e he => rooted' e (List.mem_cons_of_mem _ he)

namespace Compiler

/-! ### Two compilers -/

/-- What every compiler needs for its work: the input ends, the heap is valid, and the drafts are
live. -/
structure Tame (c : Compiler) : Prop where
  fed : c.Fed
  valid : c.heap.Valid
  live : ∀ h ∈ c.rooted, c.heap.Live h

/-- A compiler of a piece and one of the whole that have read the same tokens and written the same
code, up to its place. -/
structure Abreast (S : Setting) (around : List (Spot × Sheet)) (p : Spot) (s : Sheet)
    (c d : Compiler) : Prop where
  quiet : c.Quiet
  quiet' : d.Quiet
  tame : c.Tame
  tame' : d.Tame
  ahead : List.Forall₂ Token.Like (c.ahead ++ S.tail) d.ahead
  previous : c.previous.Like d.previous
  worded : ∀ t ∈ c.previous :: c.ahead, t.Worded
  drafts : Stacked S c.heap d.heap ((p, s) :: around) c.drafts d.drafts

/-- The input has been read to its end. -/
structure Drained (c : Compiler) : Prop where
  current : c.current.kind = .endOfInput
  pending : c.tokens.pending = []
  final : c.tokens.final.kind = .endOfInput

/-- A step that is not quiet if the input has ended. -/
def Hungry {α : Type} (x : CompileM α) : Prop :=
  ∀ c a c', c.Drained → x c = .ok a c' → ¬ c'.Quiet

variable {S : Setting} {around : List (Spot × Sheet)} {p p' p'' : Spot} {s s' : Sheet}
  {c c' d d' : Compiler} {α β γ δ : Type} {closes : Bool} {ts : List Token}

/-- Nothing has been reported. -/
theorem quiet_iff : c.Quiet ↔ c.reported = #[] := by
  refine ⟨fun quiet => ?_, fun none => quiet_of_reported (by simp [none])⟩
  rw [reported, quiet.alarm]
  exact quiet.diagnostics

/-- What has been reported stays reported. -/
theorem Takes.quiet (takes : c.Takes ts c') (quiet : c'.Quiet) : c.Quiet := by
  rw [quiet_iff] at quiet ⊢
  have hreported := takes.reported
  rw [quiet] at hreported
  exact Array.toList_eq_nil_iff.mp (List.prefix_nil.mp hreported)

/-- There is nothing behind the end of the input. -/
theorem Takes.drained (takes : c.Takes ts c') (drained : c.Drained) : c'.Drained := by
  have hpending := takes.pending
  rw [drained.pending] at hpending
  obtain ⟨rfl, hnil⟩ := List.append_eq_nil_iff.mp hpending.symm
  refine ⟨?_, hnil, takes.final ▸ drained.final⟩
  rcases takes.current with heq | hmem | heq
  · rw [heq]
    exact drained.current
  · cases hmem
  · rw [heq]
    exact drained.final

theorem Reports.quiet {x : CompileM α} {a : α} (reports : Reports true x) (run : x c = .ok a c')
    (quiet : c'.Quiet) : c.Quiet := by
  obtain ⟨taken, htakes, -⟩ := reports.takes c a c' run
  exact htakes.quiet quiet

theorem Reports.drained {x : CompileM α} {a : α} (reports : Reports true x) (run : x c = .ok a c')
    (drained : c.Drained) : c'.Drained := by
  obtain ⟨taken, htakes, -⟩ := reports.takes c a c' run
  exact htakes.drained drained

namespace Abreast

/-- A compiler that has come to the end of its input has drained it. -/
theorem drained (abreast : Abreast S around p s c d) (ended : c.current.kind = .endOfInput) :
    c.Drained :=
  ⟨ended, abreast.tame.fed.drained ended, abreast.tame.fed.final⟩

/-- The token about to be consumed is the same for both compilers. -/
theorem current (abreast : Abreast S around p s c d) (real : c.current.kind ≠ .endOfInput) :
    c.current.Like d.current := by
  have hahead := abreast.ahead
  unfold Compiler.ahead at hahead
  rw [if_neg real] at hahead
  split at hahead
  · cases hahead
  · cases hahead with
    | cons h _ => exact h

/-- The drafts of both compilers. -/
theorem draft (abreast : Abreast S around p s c d) :
    c.draft.Abreast (S.at around) p s c.heap d.heap d.draft := by
  cases abreast.drafts with
  | cons h _ _ => exact h

theorem isScript (abreast : Abreast S around p s c d) :
    c.draft.isScript = around.isEmpty := by
  cases abreast.drafts with
  | cons _ h _ => exact h

theorem enclosing (abreast : Abreast S around p s c d) :
    Stacked S c.heap d.heap around c.enclosing d.enclosing := by
  cases abreast.drafts with
  | cons _ _ h => exact h

/-- Other drafts in the place of all. -/
theorem redraft (abreast : Abreast S around p s c d) {x y : Draft} {xs ys : List Draft}
    {sheets : List (Spot × Sheet)}
    (stacked : Stacked S c.heap d.heap ((p', s') :: sheets) (x :: xs) (y :: ys))
    (live : ∀ e ∈ x :: xs, ∀ h ∈ e.handles, c.heap.Live h)
    (live' : ∀ e ∈ y :: ys, ∀ h ∈ e.handles, d.heap.Live h) :
    Abreast S sheets p' s' { c with draft := x, enclosing := xs }
      { d with draft := y, enclosing := ys } := by
  refine { abreast with
    quiet := ⟨abreast.quiet.alarm, abreast.quiet.diagnostics⟩
    quiet' := ⟨abreast.quiet'.alarm, abreast.quiet'.diagnostics⟩
    tame := ⟨abreast.tame.fed.congr rfl rfl, abreast.tame.valid, fun h hh => ?_⟩
    tame' := ⟨abreast.tame'.fed.congr rfl rfl, abreast.tame'.valid, fun h hh => ?_⟩
    drafts := stacked }
  · rcases mem_rooted.mp hh with hheld | ⟨e, he, hmem⟩
    · exact abreast.tame.live h (mem_rooted.mpr (.inl hheld))
    · exact live e he h hmem
  · rcases mem_rooted.mp hh with hheld | ⟨e, he, hmem⟩
    · exact abreast.tame'.live h (mem_rooted.mpr (.inl hheld))
    · exact live' e he h hmem

/-- All drafts of both compilers are live. -/
theorem live (abreast : Abreast S around p s c d) :
    ∀ e ∈ c.drafts, ∀ h ∈ e.handles, c.heap.Live h :=
  fun e he h hh => abreast.tame.live h (mem_rooted.mpr (.inr ⟨e, he, hh⟩))

theorem live' (abreast : Abreast S around p s c d) :
    ∀ e ∈ d.drafts, ∀ h ∈ e.handles, d.heap.Live h :=
  fun e he h hh => abreast.tame'.live h (mem_rooted.mpr (.inr ⟨e, he, hh⟩))

/-- Other drafts in the place of the innermost ones. -/
theorem edit (abreast : Abreast S around p s c d) {x y : Draft}
    (draft : x.Abreast (S.at around) p' s' c.heap d.heap y)
    (isScript : x.isScript = c.draft.isScript) (live : ∀ h ∈ x.handles, c.heap.Live h)
    (live' : ∀ h ∈ y.handles, d.heap.Live h) :
    Abreast S around p' s' { c with draft := x } { d with draft := y } :=
  abreast.redraft (.cons draft (isScript.trans abreast.isScript) abreast.enclosing)
    (List.forall_mem_cons.mpr ⟨live, fun e he => abreast.live e (List.mem_cons_of_mem _ he)⟩)
    (List.forall_mem_cons.mpr ⟨live', fun e he => abreast.live' e (List.mem_cons_of_mem _ he)⟩)

/-- Other drafts that hold the same handles. -/
theorem adjust (abreast : Abreast S around p s c d) {x y : Draft}
    (draft : x.Abreast (S.at around) p' s' c.heap d.heap y)
    (isScript : x.isScript = c.draft.isScript) (handles : x.handles = c.draft.handles)
    (handles' : y.handles = d.draft.handles) :
    Abreast S around p' s' { c with draft := x } { d with draft := y } :=
  abreast.edit draft isScript (handles ▸ abreast.live _ c.draft_mem_drafts)
    (handles' ▸ abreast.live' _ d.draft_mem_drafts)

/-- Fewer locals may be counted on. -/
theorem fewer (abreast : Abreast S around p s c d) {n : Nat} (le : n ≤ p.locals) :
    Abreast S around { p with locals := n } s c d :=
  abreast.adjust { abreast.draft with enough := le.trans abreast.draft.enough } rfl rfl rfl

/-- Later heaps that keep what is rooted. -/
theorem withHeap (abreast : Abreast S around p s c d) {heap heap' : Heap} (valid : heap.Valid)
    (keeps : c.heap.Keeps c.rooted heap) (valid' : heap'.Valid)
    (keeps' : d.heap.Keeps d.rooted heap') :
    Abreast S around p s { c with heap } { d with heap := heap' } :=
  { abreast with
    quiet := ⟨abreast.quiet.alarm, abreast.quiet.diagnostics⟩
    quiet' := ⟨abreast.quiet'.alarm, abreast.quiet'.diagnostics⟩
    tame := ⟨abreast.tame.fed.congr rfl rfl, valid, fun h hh =>
      keeps.live (.root hh) (abreast.tame.live h hh)⟩
    tame' := ⟨abreast.tame'.fed.congr rfl rfl, valid', fun h hh =>
      keeps'.live (.root hh) (abreast.tame'.live h hh)⟩
    drafts := abreast.drafts.later keeps
      (fun d hd _ hh => mem_rooted.mpr (.inr ⟨d, hd, hh⟩)) keeps'
      fun e he _ hh => mem_rooted.mpr (.inr ⟨e, he, hh⟩) }

/-- Both compilers consume a token. -/
theorem reads (abreast : Abreast S around p s c d) (real : c.current.kind ≠ .endOfInput)
    (reads : Reads c c') (reads' : Reads d d') (quiet : c'.Quiet) (quiet' : d'.Quiet) :
    Abreast S around p s c' d' := by
  have hlike := abreast.current real
  have hahead := abreast.ahead
  rw [reads.ahead real, reads'.ahead (by rw [hlike.kind]; exact real)] at hahead
  have hworded := abreast.worded
  rw [reads.ahead real] at hworded
  have hrest := reads.rest
  have hrest' := reads'.rest
  have hdrafts : c'.drafts = c.drafts := by rw [hrest]; rfl
  have hdrafts' : d'.drafts = d.drafts := by rw [hrest']; rfl
  have hheap : c'.heap = c.heap := by rw [hrest]
  have hheap' : d'.heap = d.heap := by rw [hrest']
  have hrooted : c'.rooted = c.rooted := by rw [hrest]; rfl
  have hrooted' : d'.rooted = d.rooted := by rw [hrest']; rfl
  refine ⟨quiet, quiet', ⟨reads.fed, hheap ▸ abreast.tame.valid, ?_⟩,
    ⟨reads'.fed, hheap' ▸ abreast.tame'.valid, ?_⟩, ?_, ?_, ?_, ?_⟩
  · rw [hrooted, hheap]
    exact abreast.tame.live
  · rw [hrooted', hheap']
    exact abreast.tame'.live
  · rw [List.cons_append] at hahead
    cases hahead with
    | cons _ hrest => exact hrest
  · rw [reads.previous, reads'.previous]
    exact hlike
  · rw [reads.previous]
    exact fun t ht => hworded t (List.mem_cons_of_mem _ ht)
  · rw [hdrafts, hdrafts', hheap, hheap']
    exact abreast.drafts

end Abreast

/-! ### Steps -/

/-- The ends of two steps: if neither has reported anything, the compilers are abreast again, or the
one of the piece has come to the end of its input too early. -/
def Meets (S : Setting) (around : List (Spot × Sheet)) (p : Spot) (closes : Bool)
    (post : α → α → Sheet.Fact) (s : Sheet) (r r' : EStateM.Result Fault Compiler α) : Prop :=
  ∀ a c b d, r = .ok a c → r' = .ok b d → c.Quiet → d.Quiet →
    (∃ s', s.Grows s' ∧ Abreast S around p s' c d ∧ (post a b).holds s') ∨
      (closes = false ∧ c.Drained)

/-- A step that keeps two compilers abreast, and may lead from one place to another. -/
structure Pace (S : Setting) (around : List (Spot × Sheet)) (p p' : Spot) (closes : Bool)
    (pre : Sheet.Fact) (x y : CompileM α) (post : α → α → Sheet.Fact) : Prop where
  left : Reports true x
  right : Reports true y
  meets : ∀ s c d, Abreast S around p s c d → pre.holds s →
    Meets S around p' closes post s (x c) (y d)

/-- Nothing is known of the answers. -/
abbrev any : α → α → Sheet.Fact := fun _ _ => .plain True

/-- The answers are the same. -/
abbrev same : α → α → Sheet.Fact := fun a b => .plain (b = a)

variable {pre pre' : Sheet.Fact} {post post' : α → α → Sheet.Fact} {final : β → β → Sheet.Fact}
  {x y : CompileM α} {f g : α → CompileM β} {fault : Fault}

/-- Compilers that are abreast, with answers. -/
theorem Meets.ok {a b : α} (abreast : Abreast S around p s' c d) (grows : s.Grows s')
    (answers : (post a b).holds s') : Meets S around p closes post s (.ok a c) (.ok b d) := by
  rintro _ _ _ _ ⟨⟩ ⟨⟩ - -
  exact .inl ⟨s', grows, abreast, answers⟩

/-- The compiler of the piece has drained its input. -/
theorem Meets.drained {a : α} {r : EStateM.Result Fault Compiler α} (drained : c.Drained) :
    Meets S around p false post s (.ok a c) r := by
  rintro _ _ _ _ ⟨⟩ - - -
  exact .inr ⟨rfl, drained⟩

/-- Two steps, one after the other. If the first one does not close, then the second one does not
either, or it needs a token. -/
theorem Meets.bind {closes' : Bool} (first : Meets S around p' closes post s (x c) (y d))
    (left : ∀ a, Reports true (f a)) (right : ∀ b, Reports true (g b))
    (goes : closes = true ∨ closes' = false ∨ ∀ a, Hungry (f a))
    (rest : ∀ a c' b d' s', s.Grows s' → Abreast S around p' s' c' d' → (post a b).holds s' →
      Meets S around p'' closes' final s' (f a c') (g b d')) :
    Meets S around p'' closes' final s ((x >>= f) c) ((y >>= g) d) := by
  intro a c' b d' run run' quiet quiet'
  obtain ⟨a₁, c₁, hfirst, hrest⟩ := bind_eq_ok_iff.mp run
  obtain ⟨b₁, d₁, hfirst', hrest'⟩ := bind_eq_ok_iff.mp run'
  rcases first _ _ _ _ hfirst hfirst' ((left a₁).quiet hrest quiet) ((right b₁).quiet hrest' quiet')
    with ⟨s₁, hgrows, habreast, hpost⟩ | ⟨hopen, hdrained⟩
  · exact (rest _ _ _ _ s₁ hgrows habreast hpost _ _ _ _ hrest hrest' quiet quiet').imp_left
      fun h => h.imp fun _ => And.imp_left hgrows.trans
  · rcases goes with htrue | hfalse | hungry
    · exact absurd (hopen.symm.trans htrue) Bool.false_ne_true
    · exact .inr ⟨hfalse, (left a₁).drained hrest hdrained⟩
    · exact absurd quiet (hungry _ _ _ _ hdrained hrest)

namespace Pace

/-- Less may be known in the end, and more in the beginning. -/
theorem mono (pace : Pace S around p p' closes pre x y post)
    (known : ∀ s, pre'.holds s → pre.holds s)
    (shows : ∀ a b s, (post a b).holds s → (post' a b).holds s) :
    Pace S around p p' closes pre' x y post' := by
  refine ⟨pace.left, pace.right, fun s c d abreast hpre a c' b d' run run' quiet quiet' => ?_⟩
  refine (pace.meets s c d abreast (known s hpre) _ _ _ _ run run' quiet quiet').imp_left ?_
  exact fun h => h.imp fun _ => And.imp_right (And.imp_right (shows _ _ _))

/-- More may be known in the beginning. -/
theorem known (pace : Pace S around p p' closes pre x y post)
    (known : ∀ s, pre'.holds s → pre.holds s) : Pace S around p p' closes pre' x y post :=
  pace.mono known fun _ _ _ => id

/-- A step that closes may stand where it need not. -/
theorem loosen (pace : Pace S around p p' true pre x y post) :
    Pace S around p p' closes pre x y post := by
  refine ⟨pace.left, pace.right, fun s c d abreast hpre a c' b d' run run' quiet quiet' => ?_⟩
  rcases pace.meets s c d abreast hpre _ _ _ _ run run' quiet quiet' with hdone | ⟨hfalse, -⟩
  · exact .inl hdone
  · cases hfalse

theorem pure {a b : α} (answers : ∀ s, pre.holds s → (post a b).holds s) :
    Pace S around p p closes pre (Pure.pure a) (Pure.pure b) post :=
  ⟨.pure a, .pure b, fun s _ _ abreast hpre => .ok abreast (.refl s) (answers s hpre)⟩

/-- A step that never answers for the piece. -/
theorem throw_left (right : Reports true y) :
    Pace S around p p' closes pre (throw fault) y post :=
  ⟨.throw fault, right, fun _ _ _ _ _ _ _ _ _ run => by cases run⟩

/-- A step that never answers for the whole. -/
theorem throw_right (left : Reports true x) :
    Pace S around p p' closes pre x (throw fault) post :=
  ⟨left, .throw fault, fun _ _ _ _ _ _ _ _ _ _ run => by cases run⟩

/-- Steps that are opened by the end of the first one. -/
theorem chain {closes' : Bool} (first : Pace S around p p' closes pre x y post)
    (goes : closes = true ∨ closes' = false ∨ ∀ a, Hungry (f a))
    (rest : ∀ a b, Pace S around p' p'' closes' (pre.and (post a b)) (f a) (g b) final) :
    Pace S around p p'' closes' pre (x >>= f) (y >>= g) final :=
  ⟨.bind first.left fun a => (rest a a).left, .bind first.right fun b => (rest b b).right,
    fun s c d abreast hpre => (first.meets s c d abreast hpre).bind (fun a => (rest a a).left)
      (fun b => (rest b b).right) goes fun a c' b d' s' grows habreast hpost =>
        (rest a b).meets s' c' d' habreast ⟨pre.stays s s' grows hpre, hpost⟩⟩

/-- A step that is followed by others. Both close, or neither does. -/
theorem bind (first : Pace S around p p' closes pre x y post)
    (rest : ∀ a b, Pace S around p' p'' closes (pre.and (post a b)) (f a) (g b) final) :
    Pace S around p p'' closes pre (x >>= f) (y >>= g) final :=
  first.chain (by cases closes <;> simp) rest

/-- A step that does not close, followed by others that need a token. -/
theorem into (first : Pace S around p p' false pre x y post) (hungry : ∀ a, Hungry (f a))
    (rest : ∀ a b, Pace S around p' p'' closes (pre.and (post a b)) (f a) (g b) final) :
    Pace S around p p'' closes pre (x >>= f) (y >>= g) final :=
  first.chain (.inr (.inr hungry)) rest

/-- Steps that are opened by an answer that is the same for both compilers. -/
theorem chainAgreed {closes' : Bool} (first : Pace S around p p' closes pre x y same)
    (goes : closes = true ∨ closes' = false ∨ ∀ a, Hungry (f a))
    (rest : ∀ a, Pace S around p' p'' closes' pre (f a) (g a) final) :
    Pace S around p p'' closes' pre (x >>= f) (y >>= g) final := by
  refine ⟨.bind first.left fun a => (rest a).left, .bind first.right fun b => (rest b).right,
    fun s c d abreast hpre => (first.meets s c d abreast hpre).bind (fun a => (rest a).left)
      (fun b => (rest b).right) goes ?_⟩
  rintro a c' b d' s' grows habreast rfl
  exact (rest _).meets s' c' d' habreast (pre.stays s s' grows hpre)

/-- A step whose answer is the same for both compilers. -/
theorem agreed (first : Pace S around p p' closes pre x y same)
    (rest : ∀ a, Pace S around p' p'' closes pre (f a) (g a) final) :
    Pace S around p p'' closes pre (x >>= f) (y >>= g) final :=
  first.chainAgreed (by cases closes <;> simp) rest

/-- A step whose answer is the same and that does not close, followed by others that need a
token. -/
theorem agreedInto (first : Pace S around p p' false pre x y same) (hungry : ∀ a, Hungry (f a))
    (rest : ∀ a, Pace S around p' p'' closes pre (f a) (g a) final) :
    Pace S around p p'' closes pre (x >>= f) (y >>= g) final :=
  first.chainAgreed (.inr (.inr hungry)) rest

/-- A step without an answer. -/
theorem next {x y : CompileM Unit} {f g : Unit → CompileM β}
    (first : Pace S around p p' closes pre x y any)
    (rest : Pace S around p' p'' closes pre (f ()) (g ()) final) :
    Pace S around p p'' closes pre (x >>= f) (y >>= g) final :=
  first.bind fun _ _ => rest.known fun _ => And.left

/-- A step without an answer that does not close, followed by others that need a token. -/
theorem nextInto {x y : CompileM Unit} {f g : Unit → CompileM β}
    (first : Pace S around p p' false pre x y any) (hungry : Hungry (f ()))
    (rest : Pace S around p' p'' closes pre (f ()) (g ()) final) :
    Pace S around p p'' closes pre (x >>= f) (y >>= g) final :=
  first.into (fun _ => hungry) fun _ _ => rest.known fun _ => And.left

/-- A choice that both compilers make alike. -/
theorem ite {q : Prop} [Decidable q] {x' y' : CompileM α}
    (yes : q → Pace S around p p' closes pre x x' post)
    (no : ¬ q → Pace S around p p' closes pre y y' post) :
    Pace S around p p' closes pre (if q then x else y) (if q then x' else y') post := by
  split
  · exact yes ‹_›
  · exact no ‹_›

/-- Looking at the state. What is seen of it is the same, or leads to the same. -/
theorem read {f g : Compiler → CompileM α}
    (rest : ∀ c, Reports true (f c) ∧ Reports true (g c))
    (unseen : ∀ c earlier, f (c.after earlier) = f c ∧ g (c.after earlier) = g c)
    (meets : ∀ s c d, Abreast S around p s c d → pre.holds s →
      Meets S around p' closes post s (f c c) (g d d)) :
    Pace S around p p' closes pre (get >>= f) (get >>= g) post :=
  ⟨.read (fun c earlier => (unseen c earlier).1) fun c => (rest c).1,
    .read (fun c earlier => (unseen c earlier).2) fun c => (rest c).2, meets⟩

/-- Only a compiler that has not come to the end of its input matters for a step that does not
close. -/
theorem running (left : Reports true x) (right : Reports true y)
    (meets : ∀ s c d, Abreast S around p s c d → pre.holds s →
      c.current.kind ≠ .endOfInput → Meets S around p' false post s (x c) (y d)) :
    Pace S around p p' false pre x y post := by
  refine ⟨left, right, fun s c d abreast hpre => ?_⟩
  by_cases hended : c.current.kind = .endOfInput
  · intro a c' b d' run _ _ _
    exact .inr ⟨rfl, left.drained run (abreast.drained hended)⟩
  · exact meets s c d abreast hpre hended

end Pace

end Compiler

end Lox
