import Lox.Proofs.Compile.Instrument

/-!
# The compiler with a survey of its jumps

A forward jump is written before it is known how far it leads, and other code is written, other
jumps are patched and whole functions are compiled before it is patched. Here the compiler takes a
survey besides: it notes for every function where jumps have been written, and when one of them is
given its target, it notes the target with the compiler before and after. When a function is
finished, its jumps are put down with it. Otherwise the compiler is the same.

## Main definitions

* `Aim`, `JumpSite`, `Survey` — what is noted.
* `SurveyM` — steps of the compiler that take a survey.
* `Compiler.Surveyed` — the steps that write jumps, start functions and finish them.
* `Compiler.surveyor` — the instrument that takes the survey.
* `compileSurveyed` — a whole program.
-/

namespace Lox

/-- The target that a jump is given, with the compiler before and after. -/
structure Aim where
  target : Nat
  before : Compiler
  after : Compiler

/-- A place in the code of a function where a jump has been written. -/
structure JumpSite where
  op : OpCode
  /-- The offset of its operand. -/
  operand : Nat
  /-- A forward jump has no target at first. -/
  aim : Option Aim := none

/-- The jumps that have been written. -/
structure Survey where
  /-- The jumps of the function being compiled, in the order of the code. -/
  sites : List JumpSite := []
  /-- Those of the functions around it, innermost first. -/
  outer : List (List JumpSite) := []
  /-- The finished functions with their jumps. -/
  finished : List (Function × List JumpSite) := []

namespace Survey

/-- A jump is written. -/
def add (site : JumpSite) (s : Survey) : Survey := { s with sites := s.sites ++ [site] }

/-- The jump with its operand at an offset is given its target. -/
def lead (operand : Nat) (aim : Aim) (s : Survey) : Survey :=
  { s with sites := s.sites.map fun site =>
    if site.operand = operand then { site with aim := some aim } else site }

/-- A function is started. -/
def enter (s : Survey) : Survey := { s with sites := [], outer := s.sites :: s.outer }

/-- A function is finished. -/
def finish (function : Function) (s : Survey) : Survey :=
  { s with finished := s.finished ++ [(function, s.sites)] }

/-- A function is left. -/
def leave (s : Survey) : Survey :=
  match s.outer with
  | [] => s
  | sites :: outer => { s with sites, outer }

end Survey

/-- A step of the compiler that takes a survey. -/
abbrev SurveyM := StateT Survey CompileM

namespace Compiler.Surveyed

/-! ### Jumps and functions -/

/-- Changes the survey. -/
def note (change : Survey → Survey) : SurveyM Unit := modifyThe Survey change

@[inherit_doc Compiler.emitJump]
def emitJump (op : OpCode) : SurveyM Nat := do
  let operand ← Compiler.emitJump op
  note (.add ⟨op, operand, none⟩)
  return operand

@[inherit_doc Compiler.patchJump]
def patchJump (operand : Nat) : SurveyM Unit := do
  let before ← getThe Compiler
  Compiler.patchJump operand
  let after ← getThe Compiler
  note (.lead operand ⟨before.draft.chunk.code.size, before, after⟩)

@[inherit_doc Compiler.emitLoop]
def emitLoop (target : Nat) : SurveyM Unit := do
  let before ← getThe Compiler
  Compiler.emitLoop target
  let after ← getThe Compiler
  note (.add ⟨.loop, before.draft.chunk.code.size + 1, some ⟨target, before, after⟩⟩)

@[inherit_doc Compiler.enterFunction]
def enterFunction (name : Handle) : SurveyM Unit := do
  Compiler.enterFunction name
  note .enter

@[inherit_doc Compiler.finishFunction]
def finishFunction : SurveyM Handle := do
  let function ← Compiler.finishFunction
  note (.finish (← getThe Compiler).draft.finish)
  return function

@[inherit_doc Compiler.leaveFunction]
def leaveFunction : SurveyM Unit := do
  Compiler.leaveFunction
  note .leave

end Compiler.Surveyed

/-- The instrument that takes a survey. -/
def Compiler.surveyor : Compiler.Instrument SurveyM :=
  { Compiler.Instrument.bare with
    emitJump := Compiler.Surveyed.emitJump
    patchJump := Compiler.Surveyed.patchJump
    emitLoop := Compiler.Surveyed.emitLoop
    enterFunction := Compiler.Surveyed.enterFunction
    finishFunction := Compiler.Surveyed.finishFunction
    leaveFunction := Compiler.Surveyed.leaveFunction }

/-- Compiles a program, and gives the finished functions with their jumps besides. -/
def compileSurveyed (tokens : TokenStream) (held : List Handle) :
    HeapM (Except (List Diagnostic) Handle × List (Function × List JumpSite)) := fun heap =>
  match (Compiler.surveyor.program (tokens.pending.length + 2)).run {}
      (.start tokens held heap) with
  | .ok (script, survey) c =>
    .ok (if c.reported.isEmpty then .ok script else .error c.reported.toList, survey.finished)
      c.heap
  | .error fault c => .error fault c.heap

end Lox
