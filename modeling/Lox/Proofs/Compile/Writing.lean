import Lox.Proofs.Compile.Emission

/-!
# Tokens, bytes and constants

The steps of which the compiler is made: consuming a token, writing an instruction, adding a
constant, writing a jump and patching it. Each is described for the runs that report nothing
(`Compiler.Silently`): whatever reports something never becomes quiet again.

## Main results

* `advance_spec`, `accept_spec`, `expect_spec` — tokens.
* `emit_writes`, `emitWith_writes` — instructions.
* `emitJump_writes`, `Emits.patch`, `emitLoop_writes` — jumps.
* `nameConstant_spec`, `emitConstant_spec` — constants.
-/

namespace Lox.Compiler

variable {c c' c'' : Compiler} {u : Unit}

/-- If nothing has been reported in the end, then nothing had been reported in the beginning,
and a step that began in order has the given property. -/
def Silently (c c' : Compiler) (P : Prop) : Prop := c'.Quiet → c.Quiet ∧ (c.InOrder → P)

/-! ### Reporting -/

/-- A report is never quiet. -/
theorem not_quiet_report {t : Token} {issue : Issue} : ¬ (c.report t issue).Quiet := by
  intro quiet
  unfold report at quiet
  split at quiet
  · rename_i hpanic
    rw [panicking, quiet.alarm] at hpanic
    cases hpanic
  · cases quiet.alarm

/-- A complaint is never quiet. -/
theorem not_quiet_complain {issue : Issue} (run : complain issue c = .ok u c') : ¬ c'.Quiet := by
  obtain rfl : c.report c.previous issue = c' := by simpa [complain] using run
  exact not_quiet_report

/-- A complaint about the token ahead is never quiet. -/
theorem not_quiet_complainAhead {issue : Issue} (run : complainAhead issue c = .ok u c') :
    ¬ c'.Quiet := by
  obtain rfl : c.report c.current issue = c' := by simpa [complainAhead] using run
  exact not_quiet_report

/-- Several complaints are quiet only if there are none. -/
theorem forM_complain_spec {issues : List Issue} (run : issues.forM complain c = .ok u c')
    (quiet : c'.Quiet) : issues = [] ∧ c' = c := by
  induction issues generalizing c with
  | nil => exact ⟨rfl, by simpa using run.symm⟩
  | cons issue issues ih =>
      obtain ⟨_, mid, hfirst, hrest⟩ := bind_eq_ok_iff.mp run
      obtain ⟨-, rfl⟩ := ih hrest
      exact absurd quiet (not_quiet_complain hfirst)

/-! ### The invariant under single changes -/

/-- A draft stays in order in a heap that keeps its handles. -/
theorem draft_inOrder_of_keeps (inOrder : c.InOrder) {heap : Heap}
    (keeps : c.heap.Keeps c.rooted heap) {d : Draft} (hd : d ∈ c.drafts) : d.InOrder heap := by
  obtain ⟨hlines, ⟨constants, hholds, hcompiled⟩, ⟨text, hname⟩, hlocals, hcaptures,
    hdistinct⟩ := inOrder.drafts d hd
  refine ⟨hlines, ⟨constants, hholds.imp fun v hv k hk => ?_, hcompiled⟩,
    ⟨text, hname.later keeps ?_⟩, hlocals, hcaptures, hdistinct⟩
  · exact (holds_of_keeps inOrder keeps hd hv).mpr hk
  · exact fun g hg => .root (mem_rooted.mpr (.inr ⟨d, hd, Draft.mem_handles.mpr (.inl hg)⟩))

/-- Another heap and another innermost draft leave the compiler in order. -/
theorem InOrder.update (inOrder : c.InOrder) {heap : Heap} {d : Draft} (valid : heap.Valid)
    (keeps : c.heap.Keeps c.rooted heap) (draft : d.InOrder heap)
    (linked : Linked (d :: c.enclosing)) (live : ∀ h ∈ d.handles, heap.Live h) :
    InOrder { c with draft := d, heap } := by
  refine ⟨⟨inOrder.fed.final, inOrder.fed.pending, inOrder.fed.drained⟩, valid, fun h hh => ?_,
    fun e he => ?_, linked⟩
  · rcases mem_rooted.mp hh with hheld | ⟨e, he, hmem⟩
    · have hroot : h ∈ c.rooted := mem_rooted.mpr (.inl hheld)
      exact keeps.live (.root hroot) (inOrder.live h hroot)
    · rcases List.mem_cons.mp he with rfl | he
      · exact live h hmem
      · have hroot : h ∈ c.rooted := mem_rooted.mpr (.inr ⟨e, List.mem_cons_of_mem _ he, hmem⟩)
        exact keeps.live (.root hroot) (inOrder.live h hroot)
  · rcases List.mem_cons.mp he with rfl | he
    · exact draft
    · exact draft_inOrder_of_keeps inOrder keeps (List.mem_cons_of_mem _ he)

/-! ### Tokens -/

/-- Pulling a token out of a stream never silences a report. -/
theorem quiet_of_quiet_pull {pending : List Token} (quiet : (pull c pending).Quiet) : c.Quiet := by
  induction pending generalizing c with
  | nil => exact ⟨quiet.alarm, quiet.diagnostics⟩
  | cons t pending ih =>
      unfold pull at quiet
      split at quiet
      · exact absurd (ih quiet) not_quiet_report
      · exact ⟨quiet.alarm, quiet.diagnostics⟩

/-- Pulling a token does not change the one consumed last. -/
theorem previous_pull (c : Compiler) (pending : List Token) :
    (pull c pending).previous = c.previous := by
  induction pending generalizing c with
  | nil => rfl
  | cons t pending ih =>
      unfold pull
      split
      · rw [ih, report]
        split <;> rfl
      · rfl

/-- The token that has been consumed is the one consumed last. -/
theorem advance_previous (run : advance c = .ok u c') : c'.previous = c.current := by
  obtain rfl : pull { c with previous := c.current } c.tokens.pending = c' := by
    simpa [advance] using run
  exact previous_pull _ _

/-- A token taken from the stream: the one ahead becomes the previous one. -/
structure Reads (c c' : Compiler) : Prop where
  ahead : c.current.kind ≠ .endOfInput → c.ahead = c.current :: c'.ahead
  previous : c'.previous = c.current
  rest : c' = { c with tokens := c'.tokens, current := c'.current, previous := c'.previous }
  fed : c'.Fed

/-- Consuming a token. -/
theorem advance_reads (run : advance c = .ok u c') (quiet : c'.Quiet) :
    c.Quiet ∧ (c.tokens.final.kind = .endOfInput →
      (∀ t ∈ c.tokens.pending, t.kind ≠ .endOfInput) → Reads c c') := by
  obtain rfl : pull { c with previous := c.current } c.tokens.pending = c' := by
    simpa [advance] using run
  have hquiet := quiet_of_quiet_pull quiet
  refine ⟨⟨hquiet.alarm, hquiet.diagnostics⟩, fun hfinal hpending => ?_⟩
  cases htokens : c.tokens.pending with
  | nil =>
      refine ⟨fun hkind => ?_, rfl, rfl, ⟨hfinal, by simp [pull], fun _ => rfl⟩⟩
      simp [ahead, hkind, htokens, pull, hfinal]
  | cons t pending =>
      rw [htokens] at quiet hpending
      have hkind : t.kind ≠ .malformed := by
        intro hkind
        rw [pull, if_pos hkind] at quiet
        exact not_quiet_report (quiet_of_quiet_pull quiet)
      have ht := hpending t (by simp)
      rw [pull, if_neg hkind]
      refine ⟨fun hkind => ?_, rfl, rfl, ⟨hfinal, fun s hs => hpending s (by simp_all), ?_⟩⟩
      · simp [ahead, hkind, htokens, ht]
      · exact fun hover => absurd hover ht

/-- Taking a token keeps the invariant. -/
theorem Reads.inOrder (reads : Reads c c') (inOrder : c.InOrder) : c'.InOrder := by
  have hrest := reads.rest
  have hdrafts : c'.drafts = c.drafts := by rw [hrest]; rfl
  have hrooted : c'.rooted = c.rooted := by rw [hrest]; rfl
  have hheap : c'.heap = c.heap := by rw [hrest]
  exact ⟨reads.fed, hheap ▸ inOrder.valid, by rw [hrooted, hheap]; exact inOrder.live,
    by rw [hdrafts, hheap]; exact inOrder.drafts, by rw [hdrafts]; exact inOrder.linked⟩

/-- Taking a token writes nothing. -/
theorem Reads.emits (reads : Reads c c') (inOrder : c.InOrder)
    (kind : c.current.kind ≠ .endOfInput) : c.Emits [c.current] [] [] c' := by
  have hrest := reads.rest
  have hdraft : c'.draft = c.draft := by rw [hrest]
  have henclosing : c'.enclosing = c.enclosing := by rw [hrest]
  have hheap : c'.heap = c.heap := by rw [hrest]
  refine ⟨reads.ahead kind, nofun, ?_, ?_, ?_, ?_, reads.inOrder inOrder⟩
  · exact hdraft ▸ .refl _
  · exact henclosing ▸ .refl _
  · rw [hrest]
  · exact hheap ▸ .refl _ _

/-- Consuming a token that is not the end of input. -/
theorem advance_spec (run : advance c = .ok u c') (kind : c.current.kind ≠ .endOfInput) :
    c.Silently c' (c.Emits [c.current] [] [] c' ∧ c'.previous = c.current) := by
  intro quiet
  obtain ⟨hquiet, hreads⟩ := advance_reads run quiet
  refine ⟨hquiet, fun inOrder => ?_⟩
  have reads := hreads inOrder.fed.final inOrder.fed.pending
  exact ⟨reads.emits inOrder kind, reads.previous⟩

/-- Looking at the token ahead changes nothing. -/
theorem check_spec {kind : TokenKind} {b : Bool} (run : check kind c = .ok b c') :
    c' = c ∧ b = decide (c.current.kind = kind) := by
  have hrun : check kind c = .ok (decide (c.current.kind = kind)) c := rfl
  rw [hrun] at run
  cases run
  exact ⟨rfl, rfl⟩

/-- A token is consumed if it is of the given kind, and otherwise nothing happens. -/
theorem accept_spec {kind : TokenKind} {b : Bool} (run : accept kind c = .ok b c') :
    (b = true ∧ c.current.kind = kind ∧ advance c = .ok () c') ∨
      (b = false ∧ c.current.kind ≠ kind ∧ c' = c) := by
  obtain ⟨_, mid, hcheck, run⟩ := bind_eq_ok_iff.mp run
  obtain ⟨rfl, rfl⟩ := check_spec hcheck
  by_cases hkind : mid.current.kind = kind
  · rw [if_pos (by simpa using hkind)] at run
    obtain ⟨_, last, hadvance, run⟩ := bind_eq_ok_iff.mp run
    cases run
    exact .inl ⟨rfl, hkind, hadvance⟩
  · rw [if_neg (by simpa using hkind)] at run
    cases run
    exact .inr ⟨rfl, hkind, rfl⟩

/-- A choice by the token ahead: it is consumed in front of the first form only. -/
theorem accept_cases {kind : TokenKind} {form other : CompileM Unit}
    (run : (do if ← accept kind then form else other) c = .ok u c') :
    (c.current.kind = kind ∧ ∃ mid, advance c = .ok () mid ∧ form mid = .ok u c') ∨
      (c.current.kind ≠ kind ∧ other c = .ok u c') := by
  obtain ⟨_, mid, haccept, run⟩ := bind_eq_ok_iff.mp run
  rcases accept_spec haccept with ⟨rfl, hkind, hadvance⟩ | ⟨rfl, hkind, heq⟩
  · exact .inl ⟨hkind, mid, hadvance, run⟩
  · exact .inr ⟨hkind, heq ▸ run⟩

/-- A token of a given kind is consumed. -/
theorem expect_spec {kind : TokenKind} {what : Expectation} (run : expect kind what c = .ok u c')
    (real : kind ≠ .endOfInput) :
    c.Silently c' (c.Emits [c.current] [] [] c' ∧ c.current.kind = kind ∧
      c'.previous = c.current) := by
  intro quiet
  obtain ⟨_, mid, hcheck, run⟩ := bind_eq_ok_iff.mp run
  obtain ⟨rfl, rfl⟩ := check_spec hcheck
  by_cases hkind : mid.current.kind = kind
  · rw [if_pos (by simpa using hkind)] at run
    obtain ⟨hquiet, hspec⟩ := advance_spec run (hkind ▸ real) quiet
    exact ⟨hquiet, fun inOrder => ⟨(hspec inOrder).1, hkind, (hspec inOrder).2⟩⟩
  · rw [if_neg (by simpa using hkind)] at run
    exact absurd quiet (not_quiet_complainAhead run)

/-! ### Instructions -/

/-- Nothing but code has been written. -/
structure Writes (c : Compiler) (bytes : List UInt8) (c' : Compiler) : Prop where
  code : c'.draft.chunk.code.toList = c.draft.chunk.code.toList ++ bytes
  lines : c'.draft.chunk.lines.toList =
    c.draft.chunk.lines.toList ++ List.replicate bytes.length c.previous.line
  rest : c' = { c with draft := { c.draft with chunk := { c.draft.chunk with
    code := c'.draft.chunk.code, lines := c'.draft.chunk.lines } } }

/-- Code written in two steps. -/
theorem Writes.trans {bs ds : List UInt8} (first : c.Writes bs c') (second : c'.Writes ds c'') :
    c.Writes (bs ++ ds) c'' := by
  refine ⟨by rw [second.code, first.code, List.append_assoc], ?_, ?_⟩
  · rw [second.lines, first.lines, show c'.previous = c.previous by rw [first.rest],
      List.append_assoc, List.replicate_append_replicate, List.length_append]
  · rw [second.rest, first.rest]

/-- Written code has the length of its bytes. -/
theorem Writes.size {bs : List UInt8} (writes : c.Writes bs c') :
    c'.draft.chunk.code.size = c.draft.chunk.code.size + bs.length := by
  rw [← Array.length_toList, writes.code, List.length_append, Array.length_toList]

/-- There is a line for each byte. -/
theorem Writes.size_lines {bs : List UInt8} (writes : c.Writes bs c') :
    c'.draft.chunk.lines.size = c.draft.chunk.lines.size + bs.length := by
  rw [← Array.length_toList, writes.lines, List.length_append, List.length_replicate,
    Array.length_toList]

/-- Writing code keeps the compiler in order. -/
theorem Writes.inOrder {bs : List UInt8} (writes : c.Writes bs c') (inOrder : c.InOrder) :
    c'.InOrder := by
  have hdraft := inOrder.drafts _ c.draft_mem_drafts
  have hlines := writes.size_lines
  have hsize := writes.size
  rw [writes.rest]
  refine inOrder.update inOrder.valid (.refl _ _) ⟨?_, hdraft.constants, hdraft.name,
    hdraft.locals, hdraft.captures, hdraft.distinct⟩
    (Linked.congr inOrder.linked rfl rfl) fun h hh => ?_
  · have := hdraft.lines
    simp only
    omega
  · exact inOrder.live h (mem_rooted.mpr (.inr ⟨_, c.draft_mem_drafts, hh⟩))

/-- Writing code is silent, and all that is emitted. -/
theorem Writes.silently {bs : List UInt8} (writes : c.Writes bs c') :
    c.Silently c' (c.Emits [] bs [] c') := by
  have hrest := writes.rest
  intro quiet
  rw [hrest] at quiet
  refine ⟨⟨quiet.alarm, quiet.diagnostics⟩, fun inOrder => ?_⟩
  refine ⟨?_, fun _ => ?_, ⟨?_, ?_, ?_, ?_, writes.code, ?_, ?_, [], c'.draft.locals, rfl, rfl, ?_⟩,
    ?_, ?_, ?_, writes.inOrder inOrder⟩ <;> rw [hrest]
  · rfl
  · exact ⟨rfl, rfl⟩
  · exact Draft.grows_locals_refl _
  · exact .refl _
  · exact .refl _ _

/-- Writing a byte. -/
theorem emitByte_writes {byte : UInt8} (run : emitByte byte c = .ok u c') :
    c.Writes [byte] c' := by
  cases run
  exact ⟨by simp [Chunk.write], by simp [Chunk.write], rfl⟩

/-- Writing an operation without operand. -/
theorem emit_writes {op : OpCode} (run : emit op c = .ok u c') : c.Writes op.plain c' :=
  emitByte_writes run

/-- Writing an operation with its one-byte operand. -/
theorem emitWith_writes {op : OpCode} {operand : UInt8} (run : emitWith op operand c = .ok u c') :
    c.Writes (op.short operand) c' := by
  obtain ⟨_, mid, hop, hbyte⟩ := bind_eq_ok_iff.mp run
  exact (emit_writes hop).trans (emitByte_writes hbyte)

/-- Writing operations without operands, one for each entry of a list. -/
theorem forM_emit_writes {γ : Type} {xs : List γ} {f : γ → OpCode}
    (run : xs.forM (fun x => emit (f x)) c = .ok u c') :
    c.Writes (xs.flatMap fun x => (f x).plain) c' := by
  induction xs generalizing c with
  | nil =>
      cases run
      exact ⟨by simp, by simp, rfl⟩
  | cons x xs ih =>
      obtain ⟨_, mid, hop, hrest⟩ := bind_eq_ok_iff.mp run
      exact (emit_writes hop).trans (ih hrest)

/-! ### Jumps -/

/-- The size of the code grows by what is written. -/
theorem Emits.size {ts : List Token} {bs : List UInt8} {shapes : List (String × Option Nat)}
    (emits : c.Emits ts bs shapes c') :
    c'.draft.chunk.code.size = c.draft.chunk.code.size + bs.length := by
  rw [← Array.length_toList, emits.draft.code, List.length_append, Array.length_toList]

/-- Writing a jump whose distance is not yet known: the longest one stands there meanwhile. -/
theorem emitJump_writes {op : OpCode} {operand : Nat} (run : emitJump op c = .ok operand c') :
    c.Writes (op.long maxJump) c' ∧ operand = c.draft.chunk.code.size + 1 := by
  obtain ⟨_, c₁, hop, run⟩ := bind_eq_ok_iff.mp run
  obtain ⟨_, c₂, hhigh, run⟩ := bind_eq_ok_iff.mp run
  obtain ⟨_, c₃, hlow, run⟩ := bind_eq_ok_iff.mp run
  cases run
  have writes := ((emit_writes hop).trans (emitByte_writes hhigh)).trans (emitByte_writes hlow)
  refine ⟨writes, ?_⟩
  rw [writes.size]
  rfl

/-- The code of a state after the operand at an offset has been overwritten. -/
structure Patches (c : Compiler) (operand distance : Nat) (c' : Compiler) : Prop where
  short : distance ≤ maxJump
  reach : c.draft.chunk.code.size - operand - 2 = distance
  rest : c' = { c with draft := { c.draft with chunk := c.draft.chunk.patch operand distance } }

/-- Patching a jump. -/
theorem patchJump_spec {operand : Nat} (run : patchJump operand c = .ok u c') (quiet : c'.Quiet) :
    c.Quiet ∧ ∃ distance, c.Patches operand distance c' := by
  obtain ⟨_, mid, hsize, run⟩ := bind_eq_ok_iff.mp run
  cases hsize
  split at run
  · rename_i hshort
    cases run
    exact ⟨⟨quiet.alarm, quiet.diagnostics⟩, _, hshort, rfl, rfl⟩
  · exact absurd quiet (not_quiet_complain run)

/-- Overwriting the operand of an instruction in the middle of a list. -/
theorem set_long (xs zs : List UInt8) (op : OpCode) (old new : Nat) :
    ((xs ++ op.long old ++ zs).set (xs.length + 1) (Chunk.highByte new)).set (xs.length + 1 + 1)
      (Chunk.lowByte new) = xs ++ op.long new ++ zs := by
  simp only [OpCode.long, List.append_assoc, List.cons_append, List.nil_append]
  rw [List.set_append_right _ _ (by omega), List.set_append_right _ _ (by omega)]
  have h₁ : xs.length + 1 - xs.length = 1 := by omega
  have h₂ : xs.length + 1 + 1 - xs.length = 2 := by omega
  simp only [h₁, h₂, List.set_cons_succ, List.set_cons_zero]

/-- A patched jump leads to the end of the code. -/
theorem Emits.patch {ts : List Token} {bs ds : List UInt8} {shapes : List (String × Option Nat)}
    {op : OpCode} {operand distance : Nat}
    (emits : c.Emits ts (bs ++ op.long maxJump ++ ds) shapes c')
    (patches : c'.Patches operand distance c'')
    (place : operand = c.draft.chunk.code.size + bs.length + 1) :
    distance = ds.length ∧ ds.length ≤ maxJump ∧
      c.Emits ts (bs ++ op.long ds.length ++ ds) shapes c'' := by
  obtain ⟨hshort, hdistance, hrest⟩ := patches
  have hsize := emits.size
  simp only [List.length_append, OpCode.length_long] at hsize
  obtain rfl : distance = ds.length := by omega
  have hcode : c''.draft.chunk.code.toList =
      c.draft.chunk.code.toList ++ (bs ++ op.long ds.length ++ ds) := by
    have := emits.draft.code
    rw [hrest]
    simp only [Chunk.patch, Array.toList_setIfInBounds]
    rw [emits.draft.code, place]
    have hset := set_long (c.draft.chunk.code.toList ++ bs) ds op maxJump ds.length
    simpa [List.append_assoc] using hset
  refine ⟨rfl, hshort, ?_, ?_, ⟨?_, ?_, ?_, ?_, hcode, ?_, ?_, ?_⟩, ?_, ?_, ?_, ?_⟩
  · rw [hrest]; exact emits.ahead
  · rw [hrest]; exact emits.still
  · rw [hrest]; exact emits.draft.name
  · rw [hrest]; exact emits.draft.isScript
  · rw [hrest]; exact emits.draft.arity
  · rw [hrest]; exact emits.draft.depth
  · rw [hrest]; exact emits.draft.constants
  · rw [hrest]; exact emits.draft.captures
  · rw [hrest]; exact emits.draft.locals
  · rw [hrest]; exact emits.enclosing
  · rw [hrest]; exact emits.held
  · rw [hrest]; exact emits.keeps
  · have inOrder := emits.inOrder
    have hdraft := inOrder.drafts _ (List.mem_cons_self ..)
    rw [hrest]
    refine inOrder.update inOrder.valid (.refl _ _) ?_ (Linked.congr inOrder.linked rfl rfl)
      fun h hh => inOrder.live h (mem_rooted.mpr (.inr ⟨_, List.mem_cons_self .., hh⟩))
    exact ⟨by simp [Chunk.patch, hdraft.lines], hdraft.constants, hdraft.name, hdraft.locals,
      hdraft.captures, hdraft.distinct⟩

/-- A context does not care for a patched jump. -/
theorem Patches.suits {operand distance : Nat} {K : Context}
    (patches : c.Patches operand distance c') (suits : K.Suits c') : K.Suits c := by
  obtain ⟨hconstants, hlayer, houter, hscope⟩ := suits
  rw [patches.rest] at hconstants hlayer houter hscope
  exact ⟨hconstants, hlayer, houter, hscope⟩

/-- A patched jump does not move the tokens. -/
theorem Patches.current {operand distance : Nat} (patches : c.Patches operand distance c') :
    c'.current = c.current := by
  rw [patches.rest]

/-- Writing a jump back. -/
theorem emitLoop_writes {target : Nat} (run : emitLoop target c = .ok u c') (quiet : c'.Quiet) :
    c.draft.chunk.code.size + 1 - target + 2 ≤ maxJump ∧
      c.Writes (OpCode.loop.long (c.draft.chunk.code.size + 1 - target + 2)) c' := by
  obtain ⟨_, c₁, hop, run⟩ := bind_eq_ok_iff.mp run
  obtain ⟨_, c₂, hsize, run⟩ := bind_eq_ok_iff.mp run
  cases hsize
  have hsize := (emit_writes hop).size
  simp only [OpCode.length_plain] at hsize
  rw [hsize] at run
  split at run
  · rename_i hshort
    obtain ⟨_, c₃, hhigh, hlow⟩ := bind_eq_ok_iff.mp run
    exact ⟨hshort, ((emit_writes hop).trans (emitByte_writes hhigh)).trans (emitByte_writes hlow)⟩
  · obtain ⟨_, c₃, hcomplain, run⟩ := bind_eq_ok_iff.mp run
    obtain ⟨_, c₄, hhigh, hlow⟩ := bind_eq_ok_iff.mp run
    obtain ⟨hquiet, -⟩ := ((emitByte_writes hhigh).trans (emitByte_writes hlow)).silently quiet
    exact absurd hquiet (not_quiet_complain hcomplain)

/-! ### Constants -/

/-- What resolves to a constant is live. -/
theorem live_of_holds {heap : Heap} {h : Handle} {k : Constant}
    (holds : heap.Holds (.object h) k) : heap.Live h := by
  cases holds with
  | text hs => exact ⟨_, hs⟩
  | function hf => exact ⟨_, hf⟩

/-- A context knows the constants of the states that it suits. -/
theorem constant_of_suits {K : Context} (suits : K.Suits c) {i : Nat} {v : Value}
    (found : c.draft.chunk.constants[i]? = some v) :
    ∃ k, K.constants[i]? = some k ∧ c.heap.Holds v k := by
  obtain ⟨known, hknown, hholds⟩ := suits.constants
  obtain ⟨hi, rfl⟩ := Array.getElem?_eq_some_iff.mp found
  obtain ⟨hsize, hall⟩ := Heap.holdsAll_iff.mp hholds
  have hi' : i < known.length := hsize ▸ hi
  exact ⟨known[i], getElem?_mono hknown (List.getElem?_eq_getElem hi'),
    hall i _ _ found (List.getElem?_eq_getElem hi')⟩

/-- Adding a constant. -/
theorem makeConstant_spec {value : Value} {i : UInt8} (run : makeConstant value c = .ok i c') :
    c.Silently c' (∀ k, c.heap.Holds value k → k.Compiled → c.Emits [] [] [] c' ∧
      c'.draft.chunk.constants[i.toNat]? = some value ∧ c'.heap = c.heap) := by
  intro quiet
  unfold makeConstant at run
  split at run
  · rename_i index chunk hadd
    cases run
    unfold Chunk.addConstant? at hadd
    split at hadd <;> cases hadd
    rename_i hroom
    refine ⟨⟨quiet.alarm, quiet.diagnostics⟩, fun inOrder k holds compiled => ⟨?_, ?_, rfl⟩⟩
    · have hdraft := inOrder.drafts _ c.draft_mem_drafts
      refine ⟨rfl, fun _ => ⟨rfl, rfl⟩, ⟨rfl, rfl, rfl, rfl, by simp, by simp, List.prefix_rfl,
        [], _, rfl, rfl, Draft.grows_locals_refl _⟩, .refl _, rfl, .refl _ _, ?_⟩
      refine inOrder.update inOrder.valid (.refl _ _) ⟨hdraft.lines, ?_, hdraft.name,
        hdraft.locals, hdraft.captures, hdraft.distinct⟩
        (Linked.congr inOrder.linked rfl rfl) fun h hh => ?_
      · obtain ⟨constants, hall, hcompiled⟩ := hdraft.constants
        refine ⟨constants ++ [k], ?_, fun k' hk' => ?_⟩
        · unfold Heap.HoldsAll at hall ⊢
          rw [Array.toList_push]
          exact List.rel_append hall (.cons holds .nil)
        · rcases List.mem_append.mp hk' with hk' | hk'
          · exact hcompiled k' hk'
          · exact List.mem_singleton.mp hk' ▸ compiled
      · rcases Draft.mem_handles.mp hh with hname | hmem
        · exact inOrder.live h (mem_rooted.mpr (.inr ⟨_, c.draft_mem_drafts,
            Draft.mem_handles.mpr (.inl hname)⟩))
        · rw [Array.toList_push, List.mem_append, List.mem_singleton] at hmem
          rcases hmem with hmem | rfl
          · exact inOrder.live h (mem_rooted.mpr (.inr ⟨_, c.draft_mem_drafts,
              Draft.mem_handles.mpr (.inr hmem)⟩))
          · exact live_of_holds holds
    · have hsize : (UInt8.ofNat c.draft.chunk.constants.size).toNat =
          c.draft.chunk.constants.size := by
        rw [UInt8.toNat_ofNat']
        simp only [Chunk.maxConstants] at hroom
        omega
      simp [hsize]
  · cases run
    exact absurd quiet not_quiet_report

/-- Interning a text. -/
theorem intern_spec {text : String} {h : Handle} (run : intern text c = .ok h c') :
    c.Silently c' (c.Emits [] [] [] c' ∧ c'.heap.object? h = some (.string text) ∧
      c'.draft = c.draft ∧ c'.enclosing = c.enclosing) := by
  intro quiet
  unfold intern at run
  split at run
  · rename_i h' heap hrun
    cases run
    refine ⟨⟨quiet.alarm, quiet.diagnostics⟩, fun inOrder => ?_⟩
    rcases Heap.intern_spec inOrder.valid inOrder.live text with
      ⟨_, _, hrun', hinterned⟩ | ⟨_, herror, -⟩
    · cases hrun.symm.trans hrun'
      have keeps := hinterned.keeps
      refine ⟨⟨rfl, fun _ => ⟨rfl, rfl⟩, .refl _, .refl _, rfl, keeps, ?_⟩,
        hinterned.object?_self, rfl, rfl⟩
      refine inOrder.update (hinterned.valid inOrder.valid) keeps
        (draft_inOrder_of_keeps inOrder keeps c.draft_mem_drafts) inOrder.linked fun g hg => ?_
      have hroot : g ∈ c.rooted := mem_rooted.mpr (.inr ⟨_, c.draft_mem_drafts, hg⟩)
      exact keeps.live (.root hroot) (inOrder.live g hroot)
    · cases hrun.symm.trans herror
  · cases run

/-- Adding a constant that holds a name. -/
theorem nameConstant_spec {name : String} {i : UInt8} (run : nameConstant name c = .ok i c') :
    c.Silently c' (c.Emits [] [] [] c' ∧
      ∀ K : Context, K.Suits c' → K.constants[i.toNat]? = some (.text name)) := by
  intro quiet
  obtain ⟨h, mid, hintern, hmake⟩ := bind_eq_ok_iff.mp run
  obtain ⟨hquiet, hsecond⟩ := makeConstant_spec hmake quiet
  obtain ⟨hquiet, hfirst⟩ := intern_spec hintern hquiet
  refine ⟨hquiet, fun inOrder => ?_⟩
  obtain ⟨first, htext, -, -⟩ := hfirst inOrder
  obtain ⟨second, hfound, hheap⟩ := hsecond first.inOrder _ (.text htext) (.text _)
  refine ⟨first.trans second, fun K suits => ?_⟩
  obtain ⟨k, hk, holds⟩ := constant_of_suits suits hfound
  rwa [holds.eq_text (hheap ▸ htext)] at hk

/-- Writing an instruction that pushes a constant. -/
theorem emitConstant_spec {value : Value} (run : emitConstant value c = .ok u c') :
    c.Silently c' (∀ k, c.heap.Holds value k → k.Compiled → ∃ i : UInt8,
      c.Emits [] (OpCode.constant.short i) [] c' ∧
        ∀ K : Context, K.Suits c' → ∃ k, K.constants[i.toNat]? = some k ∧
          c.heap.Holds value k) := by
  intro quiet
  obtain ⟨i, mid, hmake, hemit⟩ := bind_eq_ok_iff.mp run
  obtain ⟨hquiet, hsecond⟩ := (emitWith_writes hemit).silently quiet
  obtain ⟨hquiet, hfirst⟩ := makeConstant_spec hmake hquiet
  refine ⟨hquiet, fun inOrder k holds compiled => ⟨i, ?_⟩⟩
  obtain ⟨first, hfound, hheap⟩ := hfirst inOrder k holds compiled
  have second := hsecond first.inOrder
  refine ⟨first.trans second, fun K suits => ?_⟩
  rw [← hheap]
  exact constant_of_suits (suits.earlier first.inOrder second) hfound

end Lox.Compiler
