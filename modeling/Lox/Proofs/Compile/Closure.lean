import Lox.Proofs.Compile.Parts

/-!
# Properties that sequences keep

What is shown of all steps of the compiler is shown of the smallest ones: taking a token, reporting,
writing a byte, interning a string and changing a draft. If sequences of steps keep the property,
too, then everything that the compiler does between two constants has it.

## Main definitions

* `Compiler.Closed` — a property of steps that sequences keep.

## Main results

* `Closed.expect`, `Closed.synchronize`, `Closed.emitLoop`, `Closed.defineVariable` — the steps
  that are made of the smallest ones.
-/

namespace Lox

/-- Whether an issue is about a limit of one byte. -/
def Issue.isLimit : Issue → Bool
  | .tooManyConstants | .tooManyLocals | .tooManyCaptures | .tooManyParameters
  | .tooManyArguments => true
  | _ => false

namespace Compiler

variable {α β : Type}

/-- A property of the steps of the compiler that sequences keep, and that the smallest steps have.
What counts is counted elsewhere: only the issues that are about no limit are reported here, and
nothing is added to a draft. -/
structure Closed (P : ∀ ⦃α : Type⦄, CompileM α → Prop) : Prop where
  pure {α : Type} (a : α) : P (Pure.pure a)
  throw {α : Type} (fault : Fault) : P (throw fault : CompileM α)
  bind {α β : Type} {x : CompileM α} {f : α → CompileM β} (first : P x) (rest : ∀ a, P (f a)) :
    P (x >>= f)
  /-- The state is looked at, but not the panics that are over. -/
  read {α : Type} {f : Compiler → CompileM α}
    (blind : ∀ c diagnostics, f { c with diagnostics } = f c) (rest : ∀ c, P (f c)) :
    P (get >>= f)
  advance : P advance
  complain {issue : Issue} (ordinary : issue.isLimit = false) : P (complain issue)
  complainAhead {issue : Issue} (ordinary : issue.isLimit = false) : P (complainAhead issue)
  emitByte (byte : UInt8) : P (emitByte byte)
  intern (text : String) : P (intern text)
  modifyDraft {f : Draft → Draft} (chunk : ∀ d, (f d).chunk = d.chunk)
    (locals : ∀ d, (f d).locals.length ≤ d.locals.length)
    (captures : ∀ d, (f d).captures = d.captures) (arity : ∀ d, (f d).arity = d.arity) :
    P (modifyDraft f)

namespace Closed

variable {P : ∀ ⦃α : Type⦄, CompileM α → Prop}

theorem ite {p : Prop} [Decidable p] {x y : CompileM α} (yes : P x) (no : P y) :
    P (if p then x else y) := by
  split
  · exact yes
  · exact no

variable (closed : Closed P)

include closed

theorem forM {γ : Type} {f : γ → CompileM PUnit} (each : ∀ a, P (f a)) (l : List γ) :
    P (l.forM f) := by
  induction l with
  | nil => exact closed.pure _
  | cons a l ih => exact closed.bind (each a) fun _ => ih

/-! ### Tokens -/

theorem check (kind : TokenKind) : P (Compiler.check kind) :=
  closed.read (fun _ _ => rfl) fun _ => closed.pure _

theorem accept (kind : TokenKind) : P (Compiler.accept kind) :=
  closed.bind (closed.check kind) fun _ =>
    ite (closed.bind closed.advance fun _ => closed.pure _) (closed.pure _)

theorem expect (kind : TokenKind) (what : Expectation) : P (Compiler.expect kind what) :=
  closed.bind (closed.check kind) fun _ => ite closed.advance (closed.complainAhead rfl)

theorem skipStatement (steps : Nat) : P (Compiler.skipStatement steps) := by
  induction steps with
  | zero => exact closed.throw _
  | succ steps ih =>
      exact closed.read (fun _ _ => rfl) fun _ =>
        ite (closed.pure _) (closed.bind closed.advance fun _ => ih)

/-- The end of a panic is no smallest step, as it is for whole declarations only. -/
theorem synchronize
    (calm : P (modify fun c => { c with diagnostics := c.reported, alarm := none })) :
    P Compiler.synchronize :=
  closed.bind calm fun _ => closed.read (fun _ _ => rfl) fun _ => closed.skipStatement _

/-! ### Code -/

theorem codeSize : P Compiler.codeSize := closed.read (fun _ _ => rfl) fun _ => closed.pure _

theorem emit (op : OpCode) : P (Compiler.emit op) := closed.emitByte _

theorem emitWith (op : OpCode) (operand : UInt8) : P (Compiler.emitWith op operand) :=
  closed.bind (closed.emit op) fun _ => closed.emitByte operand

theorem emitReturn : P Compiler.emitReturn :=
  closed.bind (closed.emit _) fun _ => closed.emit _

theorem emitJump (op : OpCode) : P (Compiler.emitJump op) :=
  closed.bind (closed.emit op) fun _ => closed.bind (closed.emitByte _) fun _ =>
    closed.bind (closed.emitByte _) fun _ => closed.bind closed.codeSize fun _ => closed.pure _

/-- A patch changes code that has been written, so it is no smallest step. -/
theorem patchJump (patch : ∀ operand distance,
      P (Compiler.modifyDraft fun d => { d with chunk := d.chunk.patch operand distance }))
    (operand : Nat) : P (Compiler.patchJump operand) :=
  closed.bind closed.codeSize fun _ => ite (patch _ _) (closed.complain rfl)

theorem emitLoop (target : Nat) : P (Compiler.emitLoop target) :=
  closed.bind (closed.emit _) fun _ => closed.bind closed.codeSize fun _ => ite
    (closed.bind (closed.emitByte _) fun _ => closed.emitByte _)
    (closed.bind (closed.complain rfl) fun _ => closed.bind (closed.emitByte _) fun _ =>
      closed.emitByte _)

/-- The pairs of bytes that tell what a closure captures. -/
theorem emitCaptures (captures : Array Capture) : P (captures.toList.forM fun capture => do
    Compiler.emitByte (if capture.isLocal then 1 else 0)
    Compiler.emitByte capture.index) :=
  closed.forM (fun _ => closed.bind (closed.emitByte _) fun _ => closed.emitByte _) _

/-! ### Scopes -/

theorem inScope : P Compiler.inScope := closed.read (fun _ _ => rfl) fun _ => closed.pure _

theorem openScope : P Compiler.openScope :=
  closed.modifyDraft (fun _ => rfl) (fun _ => Nat.le_refl _) (fun _ => rfl) fun _ => rfl

theorem closeScope : P Compiler.closeScope :=
  closed.bind
    (closed.modifyDraft (fun _ => rfl) (fun _ => Nat.le_refl _) (fun _ => rfl) fun _ => rfl)
    fun _ => closed.read (fun _ _ => rfl) fun _ =>
      closed.bind (closed.forM (fun _ => closed.emit _) _) fun _ =>
        closed.modifyDraft (fun _ => rfl) (fun _ => (List.dropWhile_suffix _).length_le)
          (fun _ => rfl) fun _ => rfl

theorem markInitialized : P Compiler.markInitialized := by
  have hmark : ∀ d : Draft, d.markNewest.chunk = d.chunk ∧
      d.markNewest.locals.length = d.locals.length ∧ d.markNewest.captures = d.captures ∧
        d.markNewest.arity = d.arity := fun d => by
    unfold Draft.markNewest
    split <;> simp [*]
  exact closed.bind closed.inScope fun _ => ite
    (closed.modifyDraft (fun d => (hmark d).1) (fun d => Nat.le_of_eq (hmark d).2.1)
      (fun d => (hmark d).2.2.1) fun d => (hmark d).2.2.2)
    (closed.pure _)

theorem defineVariable (global : UInt8) : P (Compiler.defineVariable global) :=
  closed.bind closed.inScope fun _ => ite closed.markInitialized (closed.emitWith _ _)

/-! ### Names -/

/-- Looking a name up changes drafts, so this is for properties that have more smallest steps. -/
theorem resolveCapture (report : ∀ issue, P (Compiler.complain issue)) {name : String}
    (lookUp : P (lookUp name)) : P (resolveCapture name) := by
  rw [resolveCapture_eq]
  exact closed.bind lookUp fun _ => closed.bind (closed.forM report _) fun _ => closed.pure _

/-- The name of a global variable is a constant. -/
theorem resolve (report : ∀ issue, P (Compiler.complain issue))
    (makeConstant : ∀ value, P (makeConstant value)) {name : String} (lookUp : P (lookUp name)) :
    P (resolve name) := by
  refine closed.read (fun _ _ => rfl) fun c => ?_
  cases c.draft.local? name with
  | some found => exact closed.bind (closed.forM report _) fun _ => closed.pure _
  | none =>
      refine closed.bind (closed.resolveCapture report lookUp) fun index => ?_
      cases index with
      | some index => exact closed.pure _
      | none =>
          exact closed.bind (closed.bind (closed.intern name) fun _ => makeConstant _) fun _ =>
            closed.pure _

end Closed

end Compiler

end Lox
