import Lox.Proofs.Compile.Programs
import Lox.Proofs.Compile.Totality.Statements

/-!
# Compiling always ends

Whatever the tokens are, the compiler ends with a function or with diagnostics, and never does
what it does not check: every check of the checked compiler passes. A heap overflows only if a
machine word cannot count the bytes that the tokens pay for, and these are no more than a constant
for every byte of the source.

## Main definitions

* `TokenStream.cost` — what all tokens pay for together.

## Main results

* `compile_cases` — any stream of tokens.
* `TokenStream.cost_ofSource` — what the tokens of a source pay for is linear in its size.
* `compile_finishes` — streams whose strings can be read, and sources.
-/

namespace Lox

namespace Compiler

variable {L : Limits} {depth n steps : Nat} {c : Compiler}

/-! ### Programs -/

/-- The end of the input is consumed. -/
theorem accept_works (sound : c.Sound L depth) (kind : TokenKind) :
    Works L tidy 0 depth c (fun taken c' => taken = false → c' = c ∧ c.current.kind ≠ kind)
      (accept kind c) (accept kind c) := by
  refine .check (.ite (fun _ => ?_) fun hother => ?_)
  · exact (advance_works sound).bind fun _ _ h _ => .pure h.sound _ fun h => by cases h
  · exact .pure sound _ fun _ => ⟨rfl, by simpa using hother⟩

theorem programDeclarations_works {declaration declaration' : CompileM Unit}
    (each : Steadfast L n declaration declaration')
    (sound : c.Sound L depth) (left : c.unread ≤ n) (enough : c.unread < steps) :
    Works L false 16 depth c Any (Instrument.programDeclarations declaration steps c)
      (programDeclarations declaration' steps c) := by
  induction steps generalizing c with
  | zero => exact absurd enough (Nat.not_lt_zero _)
  | succ steps ih =>
      have htaken : Works L false 0 depth c _ (accept .endOfInput c) (accept .endOfInput c) :=
        accept_works sound .endOfInput
      refine htaken.step (Nat.le_add_right _ _) fun taken c' h hstays => ?_
      cases taken with
      | true => exact .ok (h.mono (Nat.zero_le _)) trivial
      | false =>
          obtain ⟨rfl, hmore⟩ := hstays rfl
          exact each.onward sound left hmore fun d hd hless => ih hd (by omega) (by omega)

/-- A program makes a script, or it faults because of the limits. The checks pass either way. -/
theorem program_cases (sound : c.Sound L 0) (enough : c.unread < steps) :
    checker.program steps c = program steps c ∧
      ((∃ script c', program steps c = .ok script c') ∨
        (∃ c', program steps c = .error .overflow c' ∧ maxWord < (c.worth + 122) * L.growth) ∨
        (∃ c', program steps c = .error .outOfRange c' ∧ L.unreadable)) := by
  -- everything but the allocation of the script
  have hwritten : Works L false (0 + (16 + 10)) 0 c Any
      ((do
        advance
        Instrument.programDeclarations (checker.declarationAt steps) steps
        emitReturn : CompileM Unit) c)
      ((do
        advance
        programDeclarations (declarationAt steps) steps
        emitReturn : CompileM Unit) c) := by
    refine (advance_works sound).bind fun _ c₁ h₁ _ => ?_
    have := h₁.unread
    have heach := (statementAt_declarationAt_works (L := L) steps c₁.unread (by omega)).2
    exact (programDeclarations_works heach h₁.sound (Nat.le_refl _) (by omega)).bind
      fun _ c₂ h₂ _ => emitReturn_works h₂.sound
  have hsplit : ∀ x : CompileM Unit, (do advance; x; finishFunction) =
      (do (do advance; x; emitReturn); allocateFunction) := fun x => by
    simp only [finishFunction_eq, bind_assoc]
  rw [show checker.program steps = (do
      advance
      Instrument.programDeclarations (checker.declarationAt steps) steps
      finishFunction) from rfl, program, hsplit, hsplit]
  generalize hx : (do
    advance
    Instrument.programDeclarations (checker.declarationAt steps) steps
    emitReturn : CompileM Unit) c = r at hwritten
  generalize hy : (do
    advance
    programDeclarations (declarationAt steps) steps
    emitReturn : CompileM Unit) c = s at hwritten
  cases hwritten with
  | @ok _ o ho =>
      rw [bind_of_ok hx, bind_of_ok hy]
      refine ⟨rfl, ?_⟩
      rcases allocateFunction_cases ho.sound with ⟨f, heap, hrun, -⟩ | ⟨e, hrun, hover⟩
      · exact .inl ⟨f, _, hrun⟩
      · refine .inr (.inl ⟨e, hrun, hover.trans_le (Nat.mul_le_mul_right _ ?_)⟩)
        have := ho.worth
        omega
  | overflow hover =>
      rw [bind_of_error hx, bind_of_error hy]
      exact ⟨rfl, .inr (.inl ⟨_, rfl, hover.trans_le (Nat.mul_le_mul_right _ (by omega))⟩)⟩
  | unreadable hbad =>
      rw [bind_of_error hx, bind_of_error hy]
      exact ⟨rfl, .inr (.inr ⟨_, rfl, hbad⟩)⟩

end Compiler

/-! ### Any stream of tokens -/

namespace TokenStream

/-- A bound of the bytes that a heap is charged for when a stream is compiled. -/
def cost (tokens : TokenStream) : Nat := (tokens.pending.map Token.price).sum + 8192

/-- The limits of a stream. -/
def limits (tokens : TokenStream) (growth : Nat) : Compiler.Limits where
  unreadable := ∃ t ∈ tokens.pending, ¬ t.Readable
  growth := growth

end TokenStream

variable {tokens : TokenStream} {held : List Handle} {heap : Heap}

/-- A compiler that has not begun is sound. -/
theorem Compiler.start_sound (final : tokens.final.kind = .endOfInput) (valid : heap.Valid)
    (live : ∀ h ∈ held, heap.Live h) :
    (start tokens held heap).Sound (tokens.limits heap.policy.growth) 0 := by
  refine ⟨final, fun t ht => ?_, valid, rfl, fun h hh => ?_, fun d hd => ?_, rfl⟩
  · simp only [window, start, List.mem_cons] at ht
    rcases ht with rfl | rfl | rfl | ht
    · exact .inl fun hkind => by
        rw [final] at hkind
        cases hkind
    · exact .inl fun hkind => by cases hkind
    · exact .inl fun hkind => by cases hkind
    · exact (Classical.em t.Readable).imp_right fun hbad => ⟨t, ht, hbad⟩
  · rw [rooted_start] at hh
    exact live h hh
  · obtain rfl : d = { name := none, isScript := true } := by simpa [drafts, start] using hd
    exact ⟨rfl, (by decide : 1 ≤ 256), Nat.zero_le _⟩

theorem Compiler.unread_start :
    (start tokens held heap).unread ≤ tokens.pending.length + 1 := by
  unfold unread
  split
  · exact Nat.zero_le _
  · exact Nat.le_refl _

/-- All tokens together pay for a program. -/
theorem Compiler.worth_start :
    (start tokens held heap).worth + 122 ≤ heap.bytes + tokens.cost := by
  have hload : (start tokens held heap).load = heap.bytes := rfl
  have hdue : (start tokens held heap).due ≤ 4096 + (tokens.pending.map Token.price).sum := by
    unfold due
    split
    · exact Nat.zero_le _
    · exact Nat.add_le_add_right (show 4 * (0 + 1024) ≤ 4096 by decide) _
  unfold worth TokenStream.cost
  omega

/-- Compiling never does what is not checked, and it ends with a function or with diagnostics,
unless a string token has no text, or the bytes that the tokens are charged for, multiplied by the
factor of growth, do not fit into a machine word. -/
theorem compile_cases (final : tokens.final.kind = .endOfInput) (valid : heap.Valid)
    (live : ∀ h ∈ held, heap.Live h) :
    compileChecked tokens held heap = compile tokens held heap ∧ ∃ heap',
      (∃ script, compile tokens held heap = .ok (.ok script) heap') ∨
      (∃ d ds, compile tokens held heap = .ok (.error (d :: ds)) heap') ∨
      (compile tokens held heap = .error .overflow heap' ∧
        maxWord < (heap.bytes + tokens.cost) * heap.policy.growth) ∨
      (compile tokens held heap = .error .outOfRange heap' ∧
        ∃ t ∈ tokens.pending, ¬ t.Readable) := by
  have hsound := Compiler.start_sound final valid live
  have henough : (Compiler.start tokens held heap).unread < tokens.pending.length + 2 :=
    Nat.lt_succ_of_le Compiler.unread_start
  obtain ⟨hchecked, houtcome⟩ := Compiler.program_cases hsound henough
  have hsame : compileChecked tokens held heap = compile tokens held heap := by
    unfold compileChecked
    rw [hchecked]
    rfl
  refine ⟨hsame, ?_⟩
  unfold compile
  rcases houtcome with ⟨script, c', hrun⟩ | ⟨c', hrun, hover⟩ | ⟨c', hrun, hbad⟩
  · simp only [hrun]
    refine ⟨c'.heap, ?_⟩
    by_cases hclean : c'.reported.isEmpty = true
    · exact .inl ⟨script, by simp [hclean]⟩
    · refine .inr (.inl ?_)
      cases hreported : c'.reported.toList with
      | nil => exact absurd (by simpa using hreported) hclean
      | cons d ds => exact ⟨d, ds, by simp [hclean]⟩
  · simp only [hrun]
    refine ⟨c'.heap, .inr (.inr (.inl ⟨rfl, hover.trans_le (Nat.mul_le_mul_right _ ?_)⟩))⟩
    exact Compiler.worth_start
  · simp only [hrun]
    exact ⟨c'.heap, .inr (.inr (.inr ⟨rfl, hbad⟩))⟩

/-- Compiling ends with a function or with diagnostics, and does nothing that is not checked. The
heap overflows only if it would be charged for more bytes than a machine word can count. -/
structure Finishes (tokens : TokenStream) (held : List Handle) (heap : Heap) (bytes : Nat) :
    Prop where
  checked : compileChecked tokens held heap = compile tokens held heap
  outcome : ∃ heap',
    (∃ script, compile tokens held heap = .ok (.ok script) heap') ∨
    (∃ d ds, compile tokens held heap = .ok (.error (d :: ds)) heap') ∨
    (compile tokens held heap = .error .overflow heap' ∧
      maxWord < (heap.bytes + bytes) * heap.policy.growth)

/-- The tokens of a source are charged for by its bytes. -/
theorem TokenStream.cost_ofSource (source : String) :
    (TokenStream.ofSource source).cost ≤ 4192 * source.utf8ByteSize + 8192 := by
  obtain ⟨hlength, hbytes⟩ := ofSource_short source
  have hprices : ∀ ts : List Token, (ts.map Token.price).sum =
      4 * (ts.map (·.lexeme.utf8ByteSize)).sum + 4096 * ts.length := fun ts => by
    induction ts with
    | nil => rfl
    | cons t ts ih =>
        simp only [List.map_cons, List.sum_cons, List.length_cons, ih, Token.price]
        omega
  rw [cost, hprices]
  omega

/-- Compiling always ends, and never does what is not checked: for every stream whose strings have
texts, and for every source. -/
theorem compile_finishes (valid : heap.Valid) (live : ∀ h ∈ held, heap.Live h) :
    (∀ tokens : TokenStream, tokens.final.kind = .endOfInput →
      (∀ t ∈ tokens.pending, t.Readable) → Finishes tokens held heap tokens.cost) ∧
    ∀ source : String, Finishes (.ofSource source) held heap
      (4192 * source.utf8ByteSize + 8192) := by
  have hstream : ∀ tokens : TokenStream, tokens.final.kind = .endOfInput →
      (∀ t ∈ tokens.pending, t.Readable) → Finishes tokens held heap tokens.cost := by
    intro tokens final readable
    obtain ⟨hchecked, heap', houtcome⟩ := compile_cases final valid live
    refine ⟨hchecked, heap', houtcome.imp_right (Or.imp_right fun hfault => ?_)⟩
    exact hfault.resolve_right fun hbad => by
      obtain ⟨-, t, ht, hunreadable⟩ := hbad
      exact hunreadable (readable t ht)
  refine ⟨hstream, fun source => ?_⟩
  have hterminated := terminated_ofSource source
  obtain ⟨hchecked, heap', houtcome⟩ := hstream _ hterminated.final hterminated.readable
  refine ⟨hchecked, heap', houtcome.imp_right (Or.imp_right (And.imp_right fun hover => ?_))⟩
  exact hover.trans_le (Nat.mul_le_mul_right _
    (Nat.add_le_add_left (TokenStream.cost_ofSource source) _))

/-- A function that is begun with a string and never ends, as tokens and as a source. -/
theorem compile_finishes_broken :
    (Finishes (.ofList [⟨.funWord, "fun", 1⟩, ⟨.string, "\"f\"", 1⟩, ⟨.leftBrace, "\x7b", 1⟩]) []
        (.empty {})
        (TokenStream.ofList
          [⟨.funWord, "fun", 1⟩, ⟨.string, "\"f\"", 1⟩, ⟨.leftBrace, "\x7b", 1⟩]).cost) ∧
      Finishes (.ofSource "fun \"f\" \x7b") [] (.empty {}) (4192 * 9 + 8192) := by
  obtain ⟨hstream, hsource⟩ := @compile_finishes [] _ (Heap.valid_empty {})
    fun h hh => by cases hh
  refine ⟨hstream _ rfl fun t ht => ?_, hsource "fun \"f\" \x7b"⟩
  simp only [TokenStream.ofList, List.mem_cons, List.not_mem_nil, or_false] at ht
  rcases ht with rfl | rfl | rfl
  · exact fun hkind => by cases hkind
  · exact fun _ => ⟨"f", by decide +kernel⟩
  · exact fun hkind => by cases hkind

end Lox
