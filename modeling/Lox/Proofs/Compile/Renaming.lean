import Lox.Proofs.Compile.Reports
import Lox.Proofs.Compile.Writing
import Lox.Proofs.Heap.Correspondence
import Lox.Proofs.Token.Lexer

/-!
# Compiling on another heap

The compiler never looks at a handle. From two states that differ in their handles only, it
takes the same decisions, writes the same bytes and makes the same reports, whether the source
is accepted or not. A fault is possible in the heap only, and only where a collection overflows:
the budget of steps is never used up, since every step that counts takes a token, and every
string token has a text.

What it means that two heaps are alike is left open: any correspondence will do.

## Main definitions

* `Compiler.Alike` — two compilers that differ in their handles only.
* `Compiler.Steady` — a step of the compiler that treats them alike.

## Main results

* `intern_agrees`, `finishFunction_agrees` — the steps that use the heap.
* `nameConstant_steady`, `resolve_steady` — names and what they refer to.
-/

namespace Lox

/-! ### Drafts -/

/-- The same draft up to a pairing. -/
structure Draft.Alike (π : Pairing) (d e : Draft) : Prop where
  name : Option.Rel π.texts d.name e.name
  isScript : e.isScript = d.isScript
  arity : e.arity = d.arity
  code : e.chunk.code = d.chunk.code
  lines : e.chunk.lines = d.chunk.lines
  constants : List.Forall₂ (Value.Alike π.all) d.chunk.constants.toList e.chunk.constants.toList
  pooled : ∀ v ∈ d.chunk.constants.toList, v.Pooled
  locals : e.locals = d.locals
  captures : e.captures = d.captures
  depth : e.depth = d.depth

section

variable {π π' : Pairing} {d e : Draft}

/-- Only the pairs that occur in a draft matter. -/
theorem Draft.Alike.mono (alike : d.Alike π e) (stays : π.Stays d.handles e.handles π') :
    d.Alike π' e := by
  refine { alike with name := ?_, constants := forall₂_mono alike.constants ?_ }
  · have hname := alike.name
    cases hn : d.name <;> cases hn' : e.name <;> rw [hn, hn'] at hname <;> cases hname
    · exact .none
    · rename_i hpair
      exact .some (stays.texts _ _ (mem_handles.mpr (.inl hn)) (mem_handles.mpr (.inl hn')) hpair)
  · intro v hv w hw hvalue
    refine hvalue.mono ?_
    rintro g h hpair rfl rfl
    exact stays.all g h (mem_handles.mpr (.inr hv)) (mem_handles.mpr (.inr hw)) hpair

/-- Every handle of a draft has its partner. -/
theorem Draft.Alike.handles (alike : d.Alike π e) : π.all.Covers d.handles e.handles := by
  constructor
  · intro g hg
    rcases mem_handles.mp hg with hg | hg
    · have hname := alike.name
      rw [hg] at hname
      cases hn : e.name <;> rw [hn] at hname <;> cases hname
      exact ⟨_, mem_handles.mpr (.inl hn), π.all_of_texts _ _ ‹_›⟩
    · obtain ⟨w, hw, hvalue⟩ := exists_of_forall₂ alike.constants.flip hg
      cases hvalue with
      | object hpair => exact ⟨_, mem_handles.mpr (.inr hw), hpair⟩
  · intro h hh
    rcases mem_handles.mp hh with hh | hh
    · have hname := alike.name
      rw [hh] at hname
      cases hn : d.name <;> rw [hn] at hname <;> cases hname
      exact ⟨_, mem_handles.mpr (.inl hn), π.all_of_texts _ _ ‹_›⟩
    · obtain ⟨v, hv, hvalue⟩ := exists_of_forall₂ alike.constants hh
      cases hvalue with
      | object hpair => exact ⟨_, mem_handles.mpr (.inr hv), hpair⟩

/-- Names that are paired are paired by every weaker relation. -/
theorem rel_mono {R S : Renaming} {x y : Option Handle} (same : Option.Rel R x y)
    (subset : ∀ g h, R g h → S g h) : Option.Rel S x y := by
  cases same with
  | some hpair => exact .some (subset _ _ hpair)
  | none => exact .none

/-- The finished functions are alike. -/
theorem Draft.Alike.finish (alike : d.Alike π e) : d.finish.Alike π.all e.finish :=
  ⟨alike.arity, by simp [Draft.finish, alike.captures], rel_mono alike.name π.all_of_texts,
    alike.code, alike.lines, alike.constants⟩

/-- A finished function refers to the handles of its draft. -/
theorem Draft.mem_handles_of_finish {c : Handle}
    (hc : .object c ∈ (Object.function d.finish).children) : c ∈ d.handles := by
  rw [mem_handles]
  simpa [Object.children, Draft.finish] using hc

/-- The handles of drafts that are alike. -/
theorem covers_drafts {ds es : List Draft} (alike : List.Forall₂ (Draft.Alike π) ds es) :
    π.all.Covers (ds.flatMap Draft.handles) (es.flatMap Draft.handles) := by
  induction alike with
  | nil => exact ⟨nofun, nofun⟩
  | cons hd _ ih =>
      rw [List.flatMap_cons, List.flatMap_cons]
      exact hd.handles.append ih

end

namespace Compiler

/-! ### States -/

/-- The input ends, it ends once, and what it holds can be read. -/
structure Legible (c : Compiler) : Prop extends Fed c where
  readable : ∀ t ∈ c.tokens.pending, t.Readable
  current : c.current.Readable
  previous : c.previous.Readable

/-- Two compilers that differ in their handles only. -/
structure Alike {held held' : List Handle} (C : Correspondence held held') (c : Compiler)
    (π : Pairing) (d : Compiler) : Prop where
  tokens : d.tokens = c.tokens
  current : d.current = c.current
  previous : d.previous = c.previous
  alarm : d.alarm = c.alarm
  diagnostics : d.diagnostics = c.diagnostics
  draft : c.draft.Alike π d.draft
  enclosing : List.Forall₂ (Draft.Alike π) c.enclosing d.enclosing
  held : c.held = held
  held' : d.held = held'
  heap : C.holds c.heap π d.heap
  legible : c.Legible

variable {held held' : List Handle} (C : Correspondence held held')

/-- What a step leaves of two compilers that are alike: they are alike again, and no tokens come
up again. A step is *eager* if it takes a token, unless the input has ended. -/
structure Moves (eager : Bool) (c c' : Compiler) (π' : Pairing) (d' : Compiler) : Prop where
  alike : c'.Alike C π' d'
  left : c'.ahead.length ≤ c.ahead.length
  takes : eager = true → c.current.kind ≠ .endOfInput → c'.ahead.length < c.ahead.length

/-- A fault that a compiler need not share with one that is alike. -/
def Lost (f : Fault) (c : Compiler) : Prop := Heap.Lost f c.heap

/-- Two runs of the compiler agree. They give related answers, and the compilers are alike in
the end. -/
abbrev Agrees {α : Type} (eager : Bool) (c : Compiler) (same : Pairing → α → α → Prop) :
    EStateM.Result Fault Compiler α →
      EStateM.Result Fault Compiler α → Prop :=
  Agree (fun a c' b d' => ∃ π', Moves C eager c c' π' d' ∧ same π' a b) (fun _ _ _ _ => False) Lost

/-- A step of the compiler that treats compilers that are alike alike, if no more than `n`
tokens are ahead. -/
def Steady {α : Type} (eager : Bool) (n : Nat) (x : CompileM α) : Prop :=
  ∀ c π d, c.Alike C π d → c.ahead.length ≤ n → Agrees C eager c (fun _ a b => b = a) (x c) (x d)

variable {C} {α β : Type} {c d c' d' c'' d'' : Compiler} {π π' π'' : Pairing}
  {eager : Bool} {n : Nat}

/-- One step after another. -/
theorem Moves.trans (first : Moves C eager c c' π' d') (second : Moves C false c' c'' π'' d'') :
    Moves C eager c c'' π'' d'' :=
  ⟨second.alike, second.left.trans first.left, fun heager hkind =>
    Nat.lt_of_le_of_lt second.left (first.takes heager hkind)⟩

/-- What an eager step does. -/
theorem Moves.idle (moves : Moves C eager c c' π' d') : Moves C false c c' π' d' :=
  { moves with takes := nofun }

/-- A change that leaves the tokens as they are. -/
theorem Moves.change (alike : c'.Alike C π' d') (tokens : c'.tokens = c.tokens)
    (current : c'.current = c.current) : Moves C false c c' π' d' :=
  ⟨alike, by simp [ahead, tokens, current], nofun⟩

/-- What is eager may be taken for idle. -/
theorem Agrees.idle {same : Pairing → α → α → Prop} {x y : EStateM.Result Fault Compiler α}
    (agrees : Agrees C eager c same x y) : Agrees C false c same x y :=
  agrees.imp fun _ _ _ _ ⟨π', hmoves, hsame⟩ => ⟨π', hmoves.idle, hsame⟩

/-- Runs that go on after steps that agree. -/
theorem Agrees.bind {x y : CompileM α} {f g : α → CompileM β} {same : Pairing → α → α → Prop}
    {after : Pairing → β → β → Prop} (first : Agrees C eager c same (x c) (y d))
    (rest : ∀ a b c' π' d', Moves C eager c c' π' d' → same π' a b →
      Agrees C false c' after (f a c') (g b d')) :
    Agrees C eager c after ((x >>= f) c) ((y >>= g) d) :=
  Agree.bind first fun a c' b d' ⟨π', hmoves, hsame⟩ =>
    (rest a b c' π' d' hmoves hsame).imp fun _ _ _ _ ⟨π'', hmoves', hafter⟩ =>
      ⟨π'', hmoves.trans hmoves', hafter⟩

namespace Steady

/-- Sequences are steady. -/
theorem bind {x : CompileM α} {f : α → CompileM β} (first : Steady C eager n x)
    (rest : ∀ a, Steady C false n (f a)) : Steady C eager n (x >>= f) := by
  intro c π d alike hleft
  refine Agrees.bind (first c π d alike hleft) fun a b c' π' d' hmoves heq => ?_
  subst heq
  exact rest b c' π' d' hmoves.alike (hmoves.left.trans hleft)

/-- Doing nothing is steady. -/
theorem pure (a : α) : Steady C false n (Pure.pure a : CompileM α) :=
  fun _ π _ alike _ => .ok ⟨π, .change alike rfl rfl, rfl⟩

/-- What is eager may be taken for idle. -/
theorem idle {x : CompileM α} (steady : Steady C eager n x) : Steady C false n x :=
  fun c π d alike hleft => (steady c π d alike hleft).idle

/-- With fewer tokens ahead, less can happen. -/
theorem mono {m : Nat} {x : CompileM α} (steady : Steady C eager n x) (le : m ≤ n) :
    Steady C eager m x :=
  fun c π d alike hleft => steady c π d alike (hleft.trans le)

/-- Looking at what does not depend on handles. -/
theorem read {f : Compiler → CompileM α} (same : ∀ c π d, c.Alike C π d → f d = f c)
    (rest : ∀ c, Steady C eager n (f c)) : Steady C eager n (get >>= f) := by
  intro c π d alike hleft
  rw [bind_of_ok (get_apply c), bind_of_ok (get_apply d), same c π d alike]
  exact rest c c π d alike hleft

/-- A change that leaves the tokens as they are. -/
theorem change {f : Compiler → Compiler} (alike : ∀ c π d, c.Alike C π d → (f c).Alike C π (f d))
    (frame : ∀ c, (f c).tokens = c.tokens ∧ (f c).current = c.current) :
    Steady C false n (modify f) := by
  intro c π d halike _
  obtain ⟨htokens, hcurrent⟩ := frame c
  exact .ok ⟨π, .change (alike c π d halike) htokens hcurrent, rfl⟩

/-- Doing something for each entry of a list. -/
theorem forM {γ : Type} {act : γ → CompileM Unit} (steady : ∀ a, Steady C false n (act a))
    (as : List γ) : Steady C false n (as.forM act) := by
  induction as with
  | nil => exact .pure _
  | cons a as ih => exact .bind (steady a) fun _ => ih

/-- A choice that does not depend on the state. -/
theorem ite {P : Prop} [Decidable P] {x y : CompileM α} (yes : P → Steady C eager n x)
    (no : ¬ P → Steady C eager n y) : Steady C eager n (if P then x else y) := by
  split
  · exact yes ‹_›
  · exact no ‹_›

end Steady

/-! ### Reports and tokens -/

/-- Reporting the same issue at the same token. -/
theorem Alike.report (alike : c.Alike C π d) (token : Token) (issue : Issue) :
    (c.report token issue).Alike C π (d.report token issue) := by
  unfold Compiler.report panicking
  rw [alike.alarm]
  split
  · exact alike
  · exact { alike with alarm := rfl, legible := { alike.legible with } }

/-- A report takes no token. -/
theorem report_frame (c : Compiler) (token : Token) (issue : Issue) :
    (c.report token issue).tokens = c.tokens ∧ (c.report token issue).current = c.current := by
  unfold Compiler.report
  split <;> exact ⟨rfl, rfl⟩

theorem complain_steady (issue : Issue) : Steady C false n (complain issue) :=
  .change (fun c π d alike => by rw [alike.previous]; exact alike.report _ _)
    fun c => report_frame c _ _

theorem complainAhead_steady (issue : Issue) : Steady C false n (complainAhead issue) :=
  .change (fun c π d alike => by rw [alike.current]; exact alike.report _ _)
    fun c => report_frame c _ _

/-- Taking the next token out of the same pending ones. What is taken was ahead. -/
theorem Alike.pull (alike : c.Alike C π d) {pending : List Token}
    (suffix : pending <:+ c.tokens.pending) :
    (c.pull pending).Alike C π (d.pull pending) ∧
      (c.pull pending).ahead.length ≤ pending.length := by
  induction pending generalizing c d with
  | nil =>
      refine ⟨?_, by simp [ahead, Compiler.pull, alike.legible.final]⟩
      have legible : (c.pull []).Legible :=
        { final := alike.legible.final, pending := by simp [Compiler.pull], drained := fun _ => rfl,
          readable := by simp [Compiler.pull]
          current := fun hkind => by
            rw [show (c.pull []).current.kind = _ from alike.legible.final] at hkind
            cases hkind
          previous := alike.legible.previous }
      exact { alike with
        tokens := by simp [Compiler.pull, alike.tokens]
        current := by simp [Compiler.pull, alike.tokens]
        legible := legible }
  | cons t pending ih =>
      have hsuffix : pending <:+ c.tokens.pending := (List.suffix_cons t pending).trans suffix
      unfold Compiler.pull
      split
      · obtain ⟨htokens, -⟩ := report_frame c t (.malformed t.lexeme)
        obtain ⟨halike, hle⟩ := ih (alike.report t (.malformed t.lexeme)) (htokens ▸ hsuffix)
        exact ⟨halike, hle.trans (Nat.le_succ _)⟩
      · have hmem := suffix.mem (List.mem_cons_self ..)
        refine ⟨{ alike with tokens := by simp [alike.tokens], current := rfl, legible := ?_ }, ?_⟩
        · exact {
            final := alike.legible.final
            pending := fun s hs => alike.legible.pending s (hsuffix.mem hs)
            drained := fun hover => absurd hover (alike.legible.pending t hmem)
            readable := fun s hs => alike.legible.readable s (hsuffix.mem hs)
            current := alike.legible.readable t hmem
            previous := alike.legible.previous }
        · simp [ahead, alike.legible.pending t hmem]

/-- Taking a token is eager. The token taken is then the previous one. -/
theorem advance_agrees (alike : c.Alike C π d) :
    ∃ c' d', advance c = .ok () c' ∧ advance d = .ok () d' ∧ Moves C true c c' π d' ∧
      c'.previous = c.current := by
  have halike : ({ c with previous := c.current } : Compiler).Alike C π
      { d with previous := d.current } :=
    { alike with
      previous := alike.current
      legible := { alike.legible with previous := alike.legible.current } }
  obtain ⟨hpull, hle⟩ := halike.pull (List.suffix_refl _)
  refine ⟨_, _, rfl, by simp only [advance, modify_apply, alike.tokens],
    ⟨hpull, ?_, ?_⟩, previous_pull _ _⟩
  · refine hle.trans ?_
    by_cases hkind : c.current.kind = .endOfInput
    · simp [alike.legible.drained hkind]
    · simp [ahead, hkind]
  · intro _ hkind
    refine Nat.lt_of_le_of_lt hle ?_
    simp [ahead, hkind]

theorem advance_steady : Steady C true n advance := by
  intro c π d alike _
  obtain ⟨c', d', hrun, hrun', hmoves, -⟩ := advance_agrees alike
  rw [hrun, hrun']
  exact .ok ⟨π, hmoves, rfl⟩

/-- Looking at the token ahead. -/
theorem check_agrees (alike : c.Alike C π d) (kind : TokenKind) :
    check kind c = .ok (decide (c.current.kind = kind)) c ∧
      check kind d = .ok (decide (c.current.kind = kind)) d := by
  constructor
  · rfl
  · rw [← alike.current]
    rfl

theorem check_steady (kind : TokenKind) : Steady C false n (check kind) :=
  .read (fun _ _ _ alike => by rw [alike.current]) fun _ => .pure _

/-- A choice by the token ahead, which is consumed in front of the first form only. -/
theorem accept_steady {kind : TokenKind} {x y : CompileM α} (proper : kind ≠ .endOfInput)
    (yes : ∀ m < n, Steady C false m x) (no : Steady C eager n y) :
    Steady C eager n (do if ← accept kind then x else y) := by
  intro c π d alike hleft
  by_cases hkind : c.current.kind = kind
  · obtain ⟨c', d', hadvance, hadvance', hmoves, -⟩ := advance_agrees alike
    rw [bind_of_ok (accept_of_eq hkind hadvance),
      bind_of_ok (accept_of_eq (alike.current ▸ hkind) hadvance')]
    have htakes := hmoves.takes rfl (hkind ▸ proper)
    refine (yes c'.ahead.length (Nat.lt_of_lt_of_le htakes hleft) c' π d' hmoves.alike
      (Nat.le_refl _)).imp fun a e b e' ⟨π', hmoves', heq⟩ => ⟨π', ?_, heq⟩
    exact { hmoves.trans hmoves' with
      takes := fun _ _ => Nat.lt_of_le_of_lt hmoves'.left htakes }
  · rw [bind_of_ok (accept_of_ne hkind), bind_of_ok (accept_of_ne (alike.current ▸ hkind))]
    exact no c π d alike hleft

theorem expect_steady (kind : TokenKind) (what : Expectation) :
    Steady C false n (expect kind what) :=
  .bind (check_steady kind) fun _ => .ite (fun _ => advance_steady.idle)
    fun _ => complainAhead_steady _

/-- Whether a statement may start here does not depend on handles. -/
theorem skipStatement_steady {steps : Nat} (enough : n < steps) :
    Steady C false n (skipStatement steps) := by
  induction steps generalizing n with
  | zero => exact absurd enough (Nat.not_lt_zero n)
  | succ steps ih =>
      intro c π d alike hleft
      unfold skipStatement
      rw [bind_of_ok (get_apply c), bind_of_ok (get_apply d), alike.current, alike.previous]
      by_cases hover : c.current.kind = .endOfInput
      · rw [if_pos (by simp [hover])]
        exact Steady.pure () c π d alike hleft
      · split
        · exact Steady.pure () c π d alike hleft
        · refine .idle (.bind (advance_steady c π d alike hleft) fun a b c' π' d' hmoves _ => ?_)
          have htakes := hmoves.takes rfl hover
          exact ih (by omega) c' π' d' hmoves.alike (Nat.le_refl _)

theorem synchronize_steady : Steady C false n synchronize := by
  refine .bind (.change (fun c π d alike => ?_) fun c => ⟨rfl, rfl⟩) fun _ => ?_
  · exact { alike with
      alarm := rfl
      diagnostics := by simp [reported, alike.alarm, alike.diagnostics]
      legible := { alike.legible with } }
  · intro c π d alike hleft
    rw [bind_of_ok (get_apply c), bind_of_ok (get_apply d), alike.tokens]
    refine skipStatement_steady (n := c.ahead.length) ?_ c π d alike (Nat.le_refl _)
    unfold ahead
    split <;> simp

/-! ### Code -/

/-- Putting drafts that are alike in place. -/
theorem Alike.withDraft (alike : c.Alike C π d) {e e' : Draft} (draft : e.Alike π e') :
    ({ c with draft := e } : Compiler).Alike C π { d with draft := e' } :=
  { alike with draft := draft, legible := { alike.legible with } }

theorem modifyDraft_steady {f : Draft → Draft}
    (alike : ∀ π d e, Draft.Alike π d e → (f d).Alike π (f e)) :
    Steady C false n (modifyDraft f) :=
  .change (fun _ π _ halike => halike.withDraft (alike π _ _ halike.draft))
    fun _ => ⟨rfl, rfl⟩

theorem codeSize_steady : Steady C false n codeSize :=
  .read (fun _ _ _ alike => by rw [alike.draft.code]) fun _ => .pure _

theorem emitByte_steady (byte : UInt8) : Steady C false n (emitByte byte) :=
  .change (fun c π d alike => by
    refine alike.withDraft { alike.draft with code := ?_, lines := ?_ }
    · simp [Chunk.write, alike.draft.code]
    · simp [Chunk.write, alike.draft.lines, alike.previous]) fun _ => ⟨rfl, rfl⟩

theorem emit_steady (op : OpCode) : Steady C false n (emit op) := emitByte_steady _

theorem emitWith_steady (op : OpCode) (operand : UInt8) : Steady C false n (emitWith op operand) :=
  .bind (emit_steady op) fun _ => emitByte_steady operand

theorem emitReturn_steady : Steady C false n emitReturn :=
  .bind (emit_steady _) fun _ => emit_steady _

theorem emitJump_steady (op : OpCode) : Steady C false n (emitJump op) :=
  .bind (emit_steady op) fun _ => .bind (emitByte_steady _) fun _ => .bind (emitByte_steady _)
    fun _ => .bind codeSize_steady fun _ => .pure _

theorem patchJump_steady (operand : Nat) : Steady C false n (patchJump operand) :=
  .bind codeSize_steady fun _ => .ite
    (fun _ => modifyDraft_steady fun _ _ _ alike =>
      { alike with code := by simp [Chunk.patch, alike.code] })
    fun _ => complain_steady _

theorem emitLoop_steady (target : Nat) : Steady C false n (emitLoop target) :=
  .bind (emit_steady _) fun _ => .bind codeSize_steady fun _ => .ite
    (fun _ => .bind (emitByte_steady _) fun _ => emitByte_steady _)
    fun _ => .bind (complain_steady _) fun _ => .bind (emitByte_steady _) fun _ => emitByte_steady _

/-! ### Objects -/

/-- Adding constants that are alike. -/
theorem makeConstant_agrees (alike : c.Alike C π d) {v w : Value} (same : v.Alike π.all w)
    (pooled : v.Pooled) :
    Agrees C false c (fun _ a b => b = a) (makeConstant v c) (makeConstant w d) := by
  have hsize : d.draft.chunk.constants.size = c.draft.chunk.constants.size := by
    have := alike.draft.constants.length_eq
    simpa using this.symm
  unfold makeConstant Chunk.addConstant?
  rw [hsize]
  split
  · rename_i index chunk hadded
    split at hadded
    · rename_i hroom
      cases hadded
      rw [if_pos hroom]
      refine .ok ⟨π, .change (alike.withDraft { alike.draft with
        constants := ?_, pooled := fun u hu => ?_ }) rfl rfl, rfl⟩
      · simpa using List.rel_append alike.draft.constants (.cons same .nil)
      · rw [Array.toList_push, List.mem_append, List.mem_singleton] at hu
        rcases hu with hu | rfl
        · exact alike.draft.pooled u hu
        · exact pooled
    · cases hadded
  · rename_i hadded
    split at hadded
    · cases hadded
    · rename_i hroom
      rw [if_neg hroom]
      obtain ⟨htokens, hcurrent⟩ := report_frame c c.previous .tooManyConstants
      exact .ok ⟨π, .change (by rw [alike.previous]; exact alike.report _ _) htokens hcurrent, rfl⟩

/-- The handles of all drafts. -/
def ownHandles (c : Compiler) : List Handle := c.drafts.flatMap Draft.handles

/-- The handles of a draft are among them. -/
theorem mem_ownHandles {e : Draft} (he : e ∈ c.drafts) {g : Handle} (hg : g ∈ e.handles) :
    g ∈ c.ownHandles :=
  List.mem_flatMap.mpr ⟨e, he, hg⟩

/-- The first compiler keeps alive what its caller holds and what its drafts hold. -/
theorem Alike.roots (alike : c.Alike C π d) :
    roots c.held c.draft c.enclosing = held ++ c.ownHandles :=
  congrArg (· ++ c.ownHandles) alike.held

/-- So does the second. -/
theorem Alike.roots' (alike : c.Alike C π d) :
    Compiler.roots d.held d.draft d.enclosing = held' ++ d.ownHandles :=
  congrArg (· ++ d.ownHandles) alike.held'

/-- Every handle of the drafts has its partner. -/
theorem Alike.covers (alike : c.Alike C π d) : π.all.Covers c.ownHandles d.ownHandles :=
  covers_drafts (.cons alike.draft alike.enclosing)

/-- After an operation of the heap that keeps the handles of the drafts, compilers are still
alike. -/
theorem Alike.withHeap (alike : c.Alike C π d) {heap heap' : Heap} (holds : C.holds heap π' heap')
    (stays : π.Stays c.ownHandles d.ownHandles π') :
    Moves C false c { c with heap } π' { d with heap := heap' } := by
  have hdraft : ∀ e ∈ c.drafts, ∀ e' ∈ d.drafts, e.Alike π e' → e.Alike π' e' :=
    fun e he e' he' halike => halike.mono
      ⟨fun g h hg hh => stays.all g h (mem_ownHandles he hg) (mem_ownHandles he' hh),
        fun g h hg hh => stays.texts g h (mem_ownHandles he hg) (mem_ownHandles he' hh)⟩
  exact ⟨{ alike with
    draft := hdraft _ c.draft_mem_drafts _ d.draft_mem_drafts alike.draft
    enclosing := forall₂_mono alike.enclosing fun e he e' he' halike =>
      hdraft e (List.mem_cons_of_mem _ he) e' (List.mem_cons_of_mem _ he') halike
    heap := holds
    legible := { alike.legible with } }, Nat.le_refl _, nofun⟩

theorem intern_agrees (alike : c.Alike C π d) (text : String) :
    Agrees C false c (fun π' g h => π'.texts g h) (intern text c) (intern text d) := by
  have agree := C.intern text alike.heap alike.covers
  unfold intern
  rw [alike.roots, alike.roots']
  generalize Heap.intern text (held ++ c.ownHandles) c.heap = left at agree
  generalize Heap.intern text (held' ++ d.ownHandles) d.heap = right at agree
  cases agree with
  | ok h =>
      obtain ⟨π', hholds, hpair, hstays⟩ := h
      exact .ok ⟨π', alike.withHeap hholds hstays, hpair⟩
  | fail h => exact h.elim
  | first h => exact .first h
  | second h => exact .second h

theorem emitConstant_agrees (alike : c.Alike C π d) {v w : Value} (same : v.Alike π.all w)
    (pooled : v.Pooled) :
    Agrees C false c (fun _ a b => b = a) (emitConstant v c) (emitConstant w d) :=
  .bind (makeConstant_agrees alike same pooled) fun a b c' π' d' hmoves heq => by
    subst heq
    exact emitWith_steady (n := c'.ahead.length) _ _ c' π' d' hmoves.alike (Nat.le_refl _)

/-- Finishing drafts that are alike gives functions that are. -/
theorem finishFunction_agrees (alike : c.Alike C π d) :
    Agrees C false c (fun π' g h => π'.all g h) (finishFunction c) (finishFunction d) := by
  refine .bind (emitReturn_steady (n := c.ahead.length) c π d alike (Nat.le_refl _))
    fun _ _ c π d hmoves _ => ?_
  have alike := hmoves.alike
  have agree := C.allocate alike.heap alike.covers alike.draft.finish alike.draft.name
    alike.draft.pooled
    (fun g hg => mem_ownHandles c.draft_mem_drafts (Draft.mem_handles_of_finish hg))
    (fun h hh => mem_ownHandles d.draft_mem_drafts (Draft.mem_handles_of_finish hh))
  rw [alike.roots, alike.roots']
  generalize Heap.allocate (.function c.draft.finish) (held ++ c.ownHandles) c.heap = left at agree
  generalize Heap.allocate (.function d.draft.finish) (held' ++ d.ownHandles) d.heap =
    right at agree
  cases agree with
  | ok h =>
      obtain ⟨π', hholds, hpair, hstays⟩ := h
      exact .ok ⟨π', alike.withHeap hholds hstays, hpair⟩
  | fail h => exact h.elim
  | first h => exact .first h
  | second h => exact .second h

/-- Entering functions whose names are alike. -/
theorem enterFunction_agrees (alike : c.Alike C π d) {g h : Handle} (pair : π.texts g h) :
    ∃ c' d', enterFunction g c = .ok () c' ∧ enterFunction h d = .ok () d' ∧
      Moves C false c c' π d' :=
  ⟨_, _, rfl, rfl, .change { alike with
    draft := ⟨.some pair, rfl, rfl, rfl, rfl, .nil, by simp, rfl, rfl, rfl⟩
    enclosing := .cons alike.draft alike.enclosing
    legible := { alike.legible with } } rfl rfl⟩

/-- Leaving functions. No pair is lost on the way. -/
theorem leaveFunction_agrees (alike : c.Alike C π d) :
    ∃ c' d', leaveFunction c = .ok () c' ∧ leaveFunction d = .ok () d' ∧
      Moves C false c c' π d' := by
  have henclosing := alike.enclosing
  unfold leaveFunction
  simp only [modify_apply, EStateM.Result.ok.injEq, true_and]
  refine ⟨_, _, rfl, rfl, ?_⟩
  cases hc : c.enclosing <;> cases hd : d.enclosing <;> rw [hc, hd] at henclosing
  · exact .change alike rfl rfl
  · cases henclosing
  · cases henclosing
  · obtain ⟨hdraft, hrest⟩ := List.forall₂_cons.mp henclosing
    exact .change
      { alike with draft := hdraft, enclosing := hrest, legible := { alike.legible with } }
      rfl rfl

/-! ### Scopes and variables -/

theorem openScope_steady : Steady C false n openScope :=
  modifyDraft_steady fun _ _ _ alike => { alike with depth := by simp [alike.depth] }

theorem closeScope_steady : Steady C false n closeScope :=
  .bind (modifyDraft_steady fun _ _ _ alike => { alike with depth := by simp [alike.depth] })
    fun _ => .read (fun _ _ _ alike => by simp only [alike.draft.locals, alike.draft.depth])
      fun _ => .bind (.forM (fun _ => emit_steady _) _) fun _ =>
        modifyDraft_steady fun _ _ _ alike =>
          { alike with locals := by simp only [alike.locals, alike.depth] }

theorem inScope_steady : Steady C false n inScope :=
  .read (fun _ _ _ alike => by rw [alike.draft.depth]) fun _ => .pure _

theorem nameConstant_steady (name : String) : Steady C false n (nameConstant name) :=
  fun _ _ _ alike _ => .bind (intern_agrees alike name) fun _ _ _ _ _ hmoves hpair =>
    makeConstant_agrees hmoves.alike (.object (Pairing.all_of_texts _ _ _ hpair)) trivial

theorem addLocal_steady (name : String) : Steady C false n (addLocal name) :=
  .read (fun _ _ _ alike => by rw [alike.draft.locals]) fun _ => .ite
    (fun _ => complain_steady _)
    fun _ => modifyDraft_steady fun _ _ _ alike => { alike with locals := by simp [alike.locals] }

theorem declareVariable_steady : Steady C false n declareVariable :=
  .bind inScope_steady fun _ => .ite
    (fun _ => .read
      (fun c _ d alike => by
        have hdeclares : d.draft.declares = c.draft.declares := by
          funext name
          rw [Draft.declares, Draft.declares, alike.draft.locals, alike.draft.depth]
        simp only [alike.previous, hdeclares])
      fun _ => .ite (fun _ => .bind (complain_steady _) fun _ => addLocal_steady _)
        fun _ => addLocal_steady _)
    fun _ => .pure _

theorem variableName_steady (what : Expectation) : Steady C false n (variableName what) :=
  .bind (expect_steady _ _) fun _ => .bind declareVariable_steady fun _ =>
    .bind inScope_steady fun _ => .ite (fun _ => .pure _)
      fun _ => .read (fun _ _ _ alike => by rw [alike.previous]) fun _ => nameConstant_steady _

theorem markInitialized_steady : Steady C false n markInitialized :=
  .bind inScope_steady fun _ => .ite
    (fun _ => modifyDraft_steady fun _ d e alike => by
      have hlocals := alike.locals
      unfold Draft.markNewest
      rw [hlocals]
      split
      · exact alike
      · exact { alike with locals := by simp [alike.depth] })
    fun _ => .pure _

theorem defineVariable_steady (global : UInt8) : Steady C false n (defineVariable global) :=
  .bind inScope_steady fun _ => .ite (fun _ => markInitialized_steady) fun _ => emitWith_steady _ _

/-- Capturing the same variable. -/
theorem Draft.Alike.addCapture {π : Pairing} {d e : Draft} (alike : d.Alike π e)
    (wanted : Capture) :
    (e.addCapture wanted).1 = (d.addCapture wanted).1 ∧
      (d.addCapture wanted).2.1.Alike π (e.addCapture wanted).2.1 ∧
      (e.addCapture wanted).2.2 = (d.addCapture wanted).2.2 := by
  unfold Draft.addCapture
  rw [alike.captures]
  split
  · exact ⟨rfl, alike, rfl⟩
  · split
    · exact ⟨rfl, alike, rfl⟩
    · exact ⟨rfl, { alike with captures := rfl }, rfl⟩

/-- Looking a name up in drafts that are alike. -/
theorem capture?_alike {π : Pairing} (name : String) {d e : Draft} {ds es : List Draft}
    (alike : d.Alike π e) (all : List.Forall₂ (Draft.Alike π) ds es) :
    (e.capture? name es).index = (d.capture? name ds).index ∧
      (e.capture? name es).issues = (d.capture? name ds).issues ∧
      (d.capture? name ds).draft.Alike π (e.capture? name es).draft ∧
      List.Forall₂ (Draft.Alike π) (d.capture? name ds).enclosing
        (e.capture? name es).enclosing := by
  induction all generalizing d e with
  | nil => exact ⟨rfl, rfl, alike, .nil⟩
  | @cons outer outer' ds es houter hothers ih =>
      unfold Draft.capture?
      rw [show outer'.local? name = outer.local? name by simp [Draft.local?, houter.locals]]
      cases hlocal : outer.local? name with
      | some found =>
          obtain ⟨slot, l⟩ := found
          obtain ⟨hindex, hdraft, hissues⟩ := Draft.Alike.addCapture alike ⟨UInt8.ofNat slot, true⟩
          refine ⟨congrArg some hindex, ?_, hdraft, .cons ?_ hothers⟩
          · simp only [hissues]
          · exact { houter with locals := by simp [houter.locals] }
      | none =>
          obtain ⟨hindex, hissues, hdraft, henclosing⟩ := ih houter
          simp only [hindex, hissues]
          cases (outer.capture? name ds).index with
          | none => exact ⟨rfl, rfl, alike, .cons hdraft henclosing⟩
          | some passed =>
              obtain ⟨hindex', hdraft', hissues'⟩ := Draft.Alike.addCapture alike ⟨passed, false⟩
              exact ⟨congrArg some hindex', by simp only [hissues'], hdraft',
                .cons hdraft henclosing⟩

theorem resolveCapture_steady (name : String) : Steady C false n (resolveCapture name) := by
  intro c π d alike hleft
  obtain ⟨hindex, hissues, hdraft, henclosing⟩ := capture?_alike name alike.draft alike.enclosing
  have hset : ({ c with
      draft := (c.draft.capture? name c.enclosing).draft
      enclosing := (c.draft.capture? name c.enclosing).enclosing } : Compiler).Alike C π
      { d with
        draft := (d.draft.capture? name d.enclosing).draft
        enclosing := (d.draft.capture? name d.enclosing).enclosing } :=
    { alike with draft := hdraft, enclosing := henclosing, legible := { alike.legible with } }
  unfold resolveCapture
  rw [bind_of_ok (get_apply c), bind_of_ok (get_apply d)]
  have first : Agrees C false c (fun _ _ _ => True) (.ok PUnit.unit _) (.ok PUnit.unit _) :=
    .ok ⟨π, .change hset rfl rfl, trivial⟩
  refine Agrees.bind first fun _ _ c' π' d' hmoves _ => ?_
  rw [hissues, hindex]
  exact Steady.bind (.forM complain_steady _) (fun _ => .pure _) c' π' d' hmoves.alike
    (hmoves.left.trans hleft)

theorem resolve_steady (name : String) : Steady C false n (resolve name) :=
  .read
    (fun c _ d alike => by
      rw [show d.draft.local? name = c.draft.local? name
        by simp [Draft.local?, alike.draft.locals]])
    fun c => by
      split
      · exact .bind (.forM complain_steady _) fun _ => .pure _
      · refine .bind (resolveCapture_steady name) fun found => ?_
        cases found with
        | some index => exact .pure _
        | none => exact .bind (nameConstant_steady name) fun _ => .pure _

end Compiler

end Lox
