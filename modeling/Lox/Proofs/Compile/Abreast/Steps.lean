import Lox.Proofs.Compile.Abreast

/-!
# Compilers that keep abreast: single steps

Tokens, instructions, jumps and constants. An instruction that is written by both compilers is the
same except for an operand that refers to a constant, which is larger in the whole by the number of
the constants in front.

## Main results

* `accept_pace`, `expect_pace` — tokens.
* `emit_pace`, `emitWith_pace`, `emitPooled_pace` — instructions.
* `emitJump_pace`, `patchJump_pace`, `emitLoop_pace` — jumps.
* `nameConstant_pace`, `emitNumber_pace`, `emitText_pace` — constants.
-/

namespace Lox

namespace Sheet

/-- A sheet with another instruction. -/
def write (s : Sheet) (op : OpCode) (size : Nat) : Sheet :=
  { s with outline := s.outline ++ [(op, size)] }

theorem Grows.write (s : Sheet) (op : OpCode) (size : Nat) : s.Grows (s.write op size) :=
  ⟨List.prefix_append _ _, List.prefix_rfl⟩

/-- A sheet with another constant. -/
def addConstant (s : Sheet) (k : Constant) : Sheet := { s with constants := s.constants ++ [k] }

theorem Grows.addConstant (s : Sheet) (k : Constant) : s.Grows (s.addConstant k) :=
  ⟨List.prefix_rfl, List.prefix_append _ _⟩

end Sheet

/-- The code of a piece is as long as its counterpart in the whole. -/
theorem Draft.Abreast.size {F : Front} {p : Spot} {s : Sheet} {heap heap' : Heap}
    {x y : Draft}
    (abreast : x.Abreast F p s heap heap' y) :
    y.chunk.code.size = F.code.length + x.chunk.code.size := by
  obtain ⟨rest, hcode, hlaid⟩ := abreast.code
  rw [← Array.length_toList, hcode, List.length_append, hlaid.size_eq.2, ← hlaid.size_eq.1,
    Array.length_toList]

namespace Compiler

variable {S : Setting} {around : List (Spot × Sheet)} {p p' : Spot} {s s' : Sheet}
  {c c' d d' : Compiler} {closes : Bool} {pre : Sheet.Fact} {op : OpCode} {i j : UInt8}

/-! ### Tokens -/

/-- Both compilers consume a token. -/
theorem Abreast.advance (abreast : Abreast S around p s c d) (closes : Bool)
    (real : c.current.kind ≠ .endOfInput) :
    Meets S around p closes any s (advance c) (advance d) := by
  rintro _ c' _ d' run run' quiet quiet'
  obtain ⟨-, hreads⟩ := advance_reads run quiet
  obtain ⟨-, hreads'⟩ := advance_reads run' quiet'
  have reads := hreads abreast.tame.fed.final abreast.tame.fed.pending
  have reads' := hreads' abreast.tame'.fed.final abreast.tame'.fed.pending
  exact .inl ⟨s, .refl s, abreast.reads real reads reads' quiet quiet', trivial⟩

theorem advance_pace : Pace S around p p false pre advance advance any :=
  .running Reports.throughout.advance Reports.throughout.advance fun _ _ _ abreast _ real =>
    abreast.advance _ real

theorem check_pace (kind : TokenKind) :
    Pace S around p p false pre (check kind) (check kind) same :=
  .running (Reports.throughout.check kind) (Reports.throughout.check kind)
    fun s c d abreast _ real => by
    rw [check_apply, check_apply, (abreast.current real).kind]
    exact .ok abreast (.refl s) rfl

/-- A token is consumed by both compilers, or by neither. -/
theorem Abreast.accept (abreast : Abreast S around p s c d) (closes : Bool) {kind : TokenKind}
    (real : c.current.kind ≠ .endOfInput) :
    Meets S around p closes same s (accept kind c) (accept kind d) := by
  have hkind := (abreast.current real).kind
  unfold Compiler.accept
  rw [bind_of_ok (check_apply kind c), bind_of_ok (check_apply kind d), hkind]
  split
  · refine (abreast.advance true real).bind (fun _ => .pure _) (fun _ => .pure _)
      (.inl rfl) fun _ c' _ d' s' _ habreast _ => ?_
    exact .ok habreast (.refl s') rfl
  · exact .ok abreast (.refl s) rfl

theorem accept_pace (kind : TokenKind) :
    Pace S around p p false pre (accept kind) (accept kind) same :=
  .running (Reports.throughout.accept kind) (Reports.throughout.accept kind)
    fun _ _ _ abreast _ real =>
    abreast.accept _ real

/-- What follows a piece does not go on with its last statement. -/
theorem acceptElse_pace :
    Pace S around p p closes pre (accept .elseWord) (accept .elseWord) same := by
  refine ⟨Reports.throughout.accept _, Reports.throughout.accept _, fun s c d abreast _ => ?_⟩
  by_cases hended : c.current.kind = .endOfInput
  · have hother : d.current.kind ≠ .elseWord := by
      intro helse
      have hahead := abreast.ahead
      unfold ahead at hahead
      rw [if_pos hended, if_neg (by rw [helse]; decide), List.nil_append] at hahead
      obtain ⟨t, ts, hlike, -, htail⟩ := List.forall₂_cons_right_iff.mp hahead
      exact S.calm t (by simp [htail]) (hlike.kind.symm.trans helse)
    rw [accept_of_ne (by rw [hended]; decide), accept_of_ne hother]
    exact .ok abreast (.refl s) rfl
  · exact abreast.accept _ hended

theorem expect_pace {kind : TokenKind} (what : Expectation) (real : kind ≠ .endOfInput) :
    Pace S around p p closes pre (expect kind what) (expect kind what) any := by
  refine ⟨Reports.throughout.expect _ _, Reports.throughout.expect _ _, fun s c d abreast _ => ?_⟩
  unfold expect
  rw [bind_of_ok (check_apply kind c), bind_of_ok (check_apply kind d)]
  by_cases hkind : c.current.kind = kind
  · have hreal : c.current.kind ≠ .endOfInput := hkind ▸ real
    rw [(abreast.current hreal).kind, if_pos (decide_eq_true hkind)]
    exact abreast.advance _ hreal
  · rw [if_neg (by simpa using hkind)]
    rintro _ _ _ _ run - quiet -
    exact absurd quiet (not_quiet_complainAhead run)

/-- A complaint ends the pace. -/
theorem complain_pace (p' : Spot) (issue : Issue) {post : Unit → Unit → Sheet.Fact} :
    Pace S around p p' closes pre (complain issue) (complain issue) post :=
  ⟨Reports.throughout.report _, Reports.throughout.report _, fun _ _ _ _ _ _ _ _ _ run _ quiet _ =>
    absurd quiet (not_quiet_complain run)⟩

theorem complainAhead_pace (issue : Issue) {post : Unit → Unit → Sheet.Fact} :
    Pace S around p p' closes pre (complainAhead issue) (complainAhead issue) post :=
  ⟨Reports.throughout.reportAhead _, Reports.throughout.reportAhead _,
    fun _ _ _ _ _ _ _ _ _ run _ quiet _ =>
    absurd quiet (not_quiet_complainAhead run)⟩

/-! ### Hungry steps -/

theorem Hungry.bind {α β : Type} {x : CompileM α} {f : α → CompileM β} (hungry : Hungry x)
    (rest : ∀ a, Reports true (f a)) : Hungry (x >>= f) := by
  intro c b c' drained run quiet
  obtain ⟨a, mid, hfirst, hrest⟩ := bind_eq_ok_iff.mp run
  exact hungry c a mid drained hfirst ((rest a).quiet hrest quiet)

/-- What follows a step needs a token, so the step does with it. -/
theorem Hungry.after {α β : Type} {x : CompileM α} {f : α → CompileM β} (first : Reports true x)
    (hungry : ∀ a, Hungry (f a)) : Hungry (x >>= f) := by
  intro c b c' drained run quiet
  obtain ⟨a, mid, hfirst, hrest⟩ := bind_eq_ok_iff.mp run
  exact hungry a mid b c' (first.drained hfirst drained) hrest quiet

theorem expect_hungry {kind : TokenKind} (what : Expectation) (real : kind ≠ .endOfInput) :
    Hungry (expect kind what) := by
  intro c _ c' drained run quiet
  unfold expect at run
  rw [bind_of_ok (check_apply kind c), drained.current, if_neg (by simpa using real.symm)] at run
  exact not_quiet_complainAhead run quiet

/-- A token that is not there is not consumed. -/
theorem accept_hungry {α : Type} {k : TokenKind} {f : Bool → CompileM α}
    (real : k ≠ .endOfInput) (rest : Hungry (f false)) : Hungry (accept k >>= f) := by
  intro c a c' drained run
  rw [bind_of_ok (accept_of_ne (by rw [drained.current]; exact real.symm))] at run
  exact rest c a c' drained run

/-- A choice that needs a token if a token of a kind is not there. -/
theorem accept_into {α : Type} {kind : TokenKind} {f g : Bool → CompileM α}
    {post : α → α → Sheet.Fact} (real : kind ≠ .endOfInput) (hungry : Hungry (f false))
    (rest : ∀ b, Pace S around p p' closes pre (f b) (g b) post) :
    Pace S around p p' closes pre (accept kind >>= f) (accept kind >>= g) post := by
  refine ⟨.bind (Reports.throughout.accept _) fun b => (rest b).left,
    .bind (Reports.throughout.accept _) fun b => (rest b).right, fun s c d abreast hpre => ?_⟩
  by_cases hended : c.current.kind = .endOfInput
  · intro a c' b d' run _ quiet _
    exact absurd quiet (accept_hungry real hungry c a c' (abreast.drained hended) run)
  · refine (abreast.accept true hended).bind (fun b => (rest b).left)
      (fun b => (rest b).right) (.inl rfl) ?_
    rintro a c' b d' s' grows habreast rfl
    exact (rest _).meets s' c' d' habreast (pre.stays s s' grows hpre)

/-! ### Instructions -/

/-- Both compilers write an instruction. -/
theorem Abreast.writes (abreast : Abreast S around p s c d) {bs ds : List UInt8}
    (writes : c.Writes bs c') (writes' : d.Writes ds d')
    (relocates : Relocates (S.at around).constants.length s.constants op bs ds)
    (real : op = .giveBack → around ≠ []) :
    Abreast S around p (s.write op bs.length) c' d' := by
  have hdraft := abreast.draft
  have hscript := abreast.isScript
  obtain ⟨rest, hcode, hlaid⟩ := hdraft.code
  have hwritten := writes.code
  have hwritten' := writes'.code
  have hlines := writes.lines
  rw [writes.rest, writes'.rest]
  refine abreast.adjust { hdraft with
    code := ⟨rest ++ ds, ?_, ?_⟩
    lines := ?_
    endless := fun h entry hentry => ?_ } rfl rfl rfl
  · rw [hwritten', hcode, List.append_assoc]
  · rw [hwritten]
    exact hlaid.append (.single relocates)
  · rw [hlines]
    exact hdraft.lines.append (.single op _ _)
  · rcases List.mem_append.mp hentry with hentry | hentry
    · exact hdraft.endless h entry hentry
    · obtain rfl := List.mem_singleton.mp hentry
      intro hback
      rw [hscript, List.isEmpty_iff] at h
      exact real hback h

theorem emit_pace (plain : op.width = 0) (real : op = .giveBack → around ≠ []) :
    Pace S around p p closes pre (emit op) (emit op) any :=
  ⟨Reports.throughout.emit op, Reports.throughout.emit op,
    fun _ _ _ abreast _ _ _ _ _ run run' _ _ =>
    .inl ⟨_, .write _ _ _,
      abreast.writes (emit_writes run) (emit_writes run') (.plain plain) real, trivial⟩⟩

/-- Instructions that have no operands and do not return. -/
theorem emits_pace {ops : List OpCode} (plain : ∀ op ∈ ops, op.width = 0 ∧ op ≠ .giveBack) :
    Pace S around p p closes pre (ops.forM emit) (ops.forM emit) any := by
  induction ops with
  | nil => exact .pure fun _ _ => trivial
  | cons op ops ih =>
      obtain ⟨hwidth, hreal⟩ := plain op (List.mem_cons_self ..)
      exact (emit_pace hwidth fun h => absurd h hreal).next
        (ih fun op hop => plain op (List.mem_cons_of_mem _ hop))

theorem emitWith_pace (short : op.width = 1) (other : op.isPooled = false)
    (slot : op.isSlot = true → i ≠ 0) :
    Pace S around p p closes pre (emitWith op i) (emitWith op i) any :=
  ⟨Reports.throughout.emitWith _ _, Reports.throughout.emitWith _ _,
    fun _ _ _ abreast _ _ _ _ _ run run' _ _ =>
    .inl ⟨_, .write _ _ _, abreast.writes (emitWith_writes run) (emitWith_writes run')
      (.short short other slot) (by rintro rfl; cases short), trivial⟩⟩

/-- An instruction whose operand refers to a constant. -/
theorem emitPooled_pace (op : OpCode) (pre : Sheet.Fact) (pooled : op.isPooled = true)
    (other : op ≠ .closure)
    (operand : ∀ s, pre.holds s → (Sheet.Fact.pooled (S.at around) i j).holds s) :
    Pace S around p p closes pre (emitWith op i) (emitWith op j) any := by
  refine ⟨Reports.throughout.emitWith _ _, Reports.throughout.emitWith _ _,
    fun s c d abreast hpre _ _ _ _ run run' _ _ =>
    .inl ⟨_, .write _ _ _, abreast.writes (emitWith_writes run) (emitWith_writes run')
      (.pooled pooled other (operand s hpre).2 (operand s hpre).1) ?_, trivial⟩⟩
  rintro rfl
  cases pooled

/-! ### Jumps -/

/-- The place where the code ends. -/
theorem codeSize_pace :
    Pace S around p p closes pre codeSize codeSize
      fun i j => .plain (j = (S.at around).code.length + i) :=
  ⟨Reports.throughout.codeSize, Reports.throughout.codeSize, fun s _ _ abreast _ =>
    .ok abreast (.refl s) abreast.draft.size⟩

theorem emitJump_pace (long : op.width = 2) :
    Pace S around p p closes pre (emitJump op) (emitJump op)
      (.hole (S.at around)) := by
  refine ⟨Reports.throughout.emitJump _, Reports.throughout.emitJump _,
    fun s c d abreast _ i c' j d' run run' _ _ => ?_⟩
  obtain ⟨writes, rfl⟩ := emitJump_writes run
  obtain ⟨writes', rfl⟩ := emitJump_writes run'
  obtain ⟨rest, -, hlaid⟩ := abreast.draft.code
  refine .inl ⟨_, .write _ _ _, abreast.writes writes writes' (.long _ _ long)
    (by rintro rfl; cases long), ?_, s.outline, op, [], rfl, long, ?_⟩
  · rw [abreast.draft.size, Nat.add_assoc]
  · rw [← hlaid.size_eq.1, Array.length_toList]

theorem patchJump_pace {i j : Nat}
    (hole : ∀ s, pre.holds s → (Sheet.Fact.hole (S.at around) i j).holds s) :
    Pace S around p p closes pre (patchJump i) (patchJump j) any := by
  refine ⟨Reports.throughout.patchJump _, Reports.throughout.patchJump _,
    fun s c d abreast hpre _ c' _ d' run run' quiet quiet' => ?_⟩
  obtain ⟨rfl, holes⟩ := hole s hpre
  obtain ⟨-, distance, -, hreach, hrest⟩ := patchJump_spec run quiet
  obtain ⟨-, distance', -, hreach', hrest'⟩ := patchJump_spec run' quiet'
  have hdraft := abreast.draft
  have hsize := hdraft.size
  obtain rfl : distance' = distance := by omega
  obtain ⟨rest, hcode, hlaid⟩ := hdraft.code
  rw [hrest, hrest']
  refine .inl ⟨s, .refl s, abreast.adjust { hdraft with
    code := ⟨(rest.set i (Chunk.highByte distance')).set (i + 1) (Chunk.lowByte distance'),
      ?_, ?_⟩ }
    rfl rfl rfl, trivial⟩
  · simp only [Chunk.patch, Array.toList_setIfInBounds, hcode]
    rw [List.set_append_right _ _ (by omega), Nat.add_sub_cancel_left,
      List.set_append_right _ _ (by omega)]
    congr 2
    omega
  · simp only [Chunk.patch, Array.toList_setIfInBounds]
    exact hlaid.overwrite holes _ _

theorem emitLoop_pace {i j : Nat} (target : ∀ s, pre.holds s → j = (S.at around).code.length + i) :
    Pace S around p p closes pre (emitLoop i) (emitLoop j) any := by
  refine ⟨Reports.throughout.emitLoop _, Reports.throughout.emitLoop _,
    fun s c d abreast hpre _ c' _ d' run run' quiet quiet' => ?_⟩
  obtain rfl := target s hpre
  obtain ⟨-, writes⟩ := emitLoop_writes run quiet
  obtain ⟨-, writes'⟩ := emitLoop_writes run' quiet'
  have hsame : d.draft.chunk.code.size + 1 - ((S.at around).code.length + i) + 2 =
      c.draft.chunk.code.size + 1 - i + 2 := by
    rw [abreast.draft.size]
    omega
  rw [hsame] at writes'
  exact .inl ⟨_, .write _ _ _, abreast.writes writes writes' (.long _ _ rfl)
    (fun h => by cases h), trivial⟩

/-! ### Constants -/

/-- Adding a constant. -/
theorem makeConstant_cases {v : Value} (run : makeConstant v c = .ok i c') (quiet : c'.Quiet) :
    i.toNat = c.draft.chunk.constants.size ∧ c' = { c with draft := { c.draft with
      chunk := { c.draft.chunk with constants := c.draft.chunk.constants.push v } } } := by
  unfold makeConstant at run
  split at run
  · rename_i index chunk hadd
    cases run
    unfold Chunk.addConstant? at hadd
    split at hadd <;> cases hadd
    rename_i hroom
    refine ⟨?_, rfl⟩
    rw [UInt8.toNat_ofNat']
    simp only [Chunk.maxConstants] at hroom
    omega
  · cases run
    exact absurd quiet not_quiet_report

/-- The handles of a draft with another constant. -/
theorem live_push {heap : Heap} {x : Draft} {v : Value} {k : Constant}
    (live : ∀ h ∈ x.handles, heap.Live h) (holds : heap.Holds v k) :
    ∀ h ∈ ({ x with chunk := { x.chunk with constants := x.chunk.constants.push v } } :
      Draft).handles, heap.Live h := by
  intro h hh
  rcases Draft.mem_handles.mp hh with hname | hmem
  · exact live h (Draft.mem_handles.mpr (.inl hname))
  · rw [Array.toList_push, List.mem_append, List.mem_singleton] at hmem
    rcases hmem with hmem | rfl
    · exact live h (Draft.mem_handles.mpr (.inr hmem))
    · exact live_of_holds holds

/-- Both compilers add a constant. -/
theorem Abreast.makeConstant (abreast : Abreast S around p s c d) (closes : Bool) {v w : Value}
    {k k' : Constant} (holds : c.heap.Holds v k) (holds' : d.heap.Holds w k') (kin : k.Kin k')
    (lined : k.Lined) :
    Meets S around p closes (.stored (S.at around) k) s (makeConstant v c) (makeConstant w d) := by
  intro i c' j d' run run' quiet quiet'
  obtain ⟨hi, hrest⟩ := makeConstant_cases run quiet
  obtain ⟨hj, hrest'⟩ := makeConstant_cases run' quiet'
  have hdraft := abreast.draft
  obtain ⟨ks, hconstants', hkin⟩ := hdraft.constants'
  obtain ⟨rest, hcode, hlaid⟩ := hdraft.code
  have hcount := hdraft.constants.length_eq
  have hcount' := hconstants'.length_eq
  have hsame := hkin.length_eq
  rw [Array.length_toList] at hcount
  rw [Array.length_toList, List.length_append] at hcount'
  rw [hrest, hrest']
  refine .inl ⟨s.addConstant k, .addConstant _ _, abreast.edit { hdraft with
    constants := ?_
    constants' := ⟨ks ++ [k'], ?_, List.rel_append hkin (.cons kin .nil)⟩
    code := ⟨rest, hcode, hlaid.mono (List.prefix_append _ _)⟩
    lined := List.forall_mem_append.mpr ⟨hdraft.lined, by simpa using lined⟩ } rfl
    (live_push (abreast.live _ c.draft_mem_drafts) holds)
    (live_push (abreast.live' _ d.draft_mem_drafts) holds'), ?_, ?_⟩
  · simp only [Heap.HoldsAll, Array.toList_push]
    exact List.rel_append hdraft.constants (.cons holds .nil)
  · simp only [Heap.HoldsAll, Array.toList_push, ← List.append_assoc]
    exact List.rel_append hconstants' (.cons holds' .nil)
  · omega
  · rw [hi, hcount]
    simp [Sheet.addConstant]

/-- Interning a text. -/
theorem Tame.intern (tame : c.Tame) {text : String} {h : Handle}
    (run : intern text c = .ok h c') :
    ∃ heap, c' = { c with heap } ∧ heap.Valid ∧ c.heap.Keeps c.rooted heap ∧
      heap.object? h = some (.string text) := by
  unfold Compiler.intern at run
  split at run
  · rename_i h' heap hrun
    cases run
    rcases Heap.intern_spec tame.valid tame.live text with ⟨_, _, hrun', hinterned⟩ | ⟨_, herror, -⟩
    · cases hrun.symm.trans hrun'
      exact ⟨_, rfl, hinterned.valid tame.valid, hinterned.keeps, hinterned.object?_self⟩
    · cases hrun.symm.trans herror
  · cases run

/-- A text that is interned by both compilers, and what is done with it. -/
theorem Abreast.intern (abreast : Abreast S around p s c d) {α : Type} {text : String}
    {f g : Handle → CompileM α} {post : α → α → Sheet.Fact}
    (rest : ∀ h h' heap heap', heap.object? h = some (.string text) →
      heap'.object? h' = some (.string text) →
      Abreast S around p s { c with heap } { d with heap := heap' } →
      Meets S around p' closes post s (f h { c with heap }) (g h' { d with heap := heap' })) :
    Meets S around p' closes post s ((intern text >>= f) c) ((intern text >>= g) d) := by
  intro a c' b d' run run' quiet quiet'
  obtain ⟨h, c₁, hintern, hrest⟩ := bind_eq_ok_iff.mp run
  obtain ⟨h', d₁, hintern', hrest'⟩ := bind_eq_ok_iff.mp run'
  obtain ⟨heap, rfl, hvalid, hkeeps, htext⟩ := abreast.tame.intern hintern
  obtain ⟨heap', rfl, hvalid', hkeeps', htext'⟩ := abreast.tame'.intern hintern'
  exact rest h h' heap heap' htext htext' (abreast.withHeap hvalid hkeeps hvalid' hkeeps')
    _ _ _ _ hrest hrest' quiet quiet'

theorem nameConstant_pace (name : String) :
    Pace S around p p closes pre (nameConstant name) (nameConstant name)
      (.pooled (S.at around)) :=
  .mono ⟨Reports.throughout.nameConstant name, Reports.throughout.nameConstant name,
    fun _ _ _ abreast _ =>
    abreast.intern fun _ _ _ _ htext htext' habreast =>
      habreast.makeConstant _ (.text htext) (.text htext') (.text name) (.text name)⟩
    (fun _ => id) fun _ _ _ => Sheet.Fact.pooled_of_stored

/-- Both compilers push a constant. -/
theorem Abreast.emitConstant (abreast : Abreast S around p s c d) {v w : Value}
    {k k' : Constant} (holds : c.heap.Holds v k) (holds' : d.heap.Holds w k') (kin : k.Kin k')
    (lined : k.Lined) :
    Meets S around p closes any s (emitConstant v c) (emitConstant w d) := by
  refine Meets.bind (abreast.makeConstant true holds holds' kin lined)
    (fun _ => Reports.throughout.emitWith _ _) (fun _ => Reports.throughout.emitWith _ _) (.inl rfl)
    fun i c' j d' s' _ habreast hstored => ?_
  exact (emitPooled_pace _ (.pooled (S.at around) i j) rfl (by decide) fun _ => id).meets s' c' d'
    habreast (Sheet.Fact.pooled_of_stored hstored)

theorem emitNumber_pace (x : Float) :
    Pace S around p p closes pre (emitConstant (.number x)) (emitConstant (.number x)) any :=
  ⟨Reports.throughout.emitConstant _, Reports.throughout.emitConstant _, fun _ _ _ abreast _ =>
    abreast.emitConstant .number .number (.number x) (.number x)⟩

/-- Both compilers push a text. -/
theorem emitText_pace (text : String) :
    Pace S around p p closes pre (do emitConstant (.object (← intern text)))
      (do emitConstant (.object (← intern text))) any :=
  ⟨.bind (Reports.throughout.intern text) fun _ => Reports.throughout.emitConstant _,
    .bind (Reports.throughout.intern text) fun _ => Reports.throughout.emitConstant _,
      fun _ _ _ abreast _ =>
    abreast.intern fun _ _ _ _ htext htext' habreast =>
      habreast.emitConstant (.text htext) (.text htext') (.text text) (.text text)⟩

end Compiler

end Lox
