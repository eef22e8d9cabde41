import Lox.Proofs.Code.Reading
import Lox.Proofs.Heap.Secure
import Lox.Proofs.Lists

/-!
# Active calls

A call that is active has typed code, and the stack has the height and the profile that belong
to the place where its code goes on. The innermost call goes on where its frame says; a call
outside of it goes on when the inner one has left its result on the stack.

## Main definitions

* `Heap.Runs` — the code of a frame.
* `Heap.Calls` — the calls around the innermost one, with the profile of their slots.
* `Machine.Poised` — a machine in the middle of an instruction.
* `Machine.Ready`, `Machine.Idle` — a machine between two instructions, and between two scripts.
-/

namespace Lox

/-- Right in front of an offset of a listing there is a call. -/
def Listing.Called (L : Listing) (offset : Nat) : Prop :=
  ∃ (pre : Listing) (profile : Profile) (count : UInt8) (post : Listing),
    L = pre ++ ⟨profile, OpCode.call.short count⟩ :: post ∧ offset = pre.size + 2

namespace Heap

/-! ### Frames -/

/-- A frame **runs** a function whose code is a typed listing. -/
structure Runs (heap : Heap) (fr : Frame) (f : Function) (constants : List Constant)
    (L : Listing) : Prop where
  closure : ∃ c, heap.object? fr.closure = some (.closure c) ∧ c.function = fr.function
  function : heap.object? fr.function = some (.function f)
  named : ∃ name, heap.Named f.name name
  holds : heap.HoldsAll f.chunk.constants constants
  typed : ∀ k ∈ constants, k.Typed
  lines : f.chunk.lines.size = f.chunk.code.size
  code : f.chunk.code.toList = L.code
  listed : L.Typed constants f.upvalueCount
  ends : L.Ends constants f.upvalueCount (f.name = none)

/-- A frame goes on at its offset, right behind a call, when the slots of its own call have a given
profile. The outermost frame is that of a script. -/
def Awaits (heap : Heap) (fr : Frame) (outer : List Frame) (P : Profile) : Prop :=
  ∃ f constants L, heap.Runs fr f constants L ∧ L.At fr.ip P ∧ L.Called fr.ip ∧
    (outer = [] → f.name = none)

/-- Calls that wait for the result of an inner call, innermost first, and the profile of all
their slots. -/
inductive Calls (heap : Heap) : List Frame → Profile → Prop
  | nil : Calls heap [] []
  | cons {fr : Frame} {outer : List Frame} {P below : Profile} : heap.Awaits fr outer (false :: P) →
      Calls heap outer below → below.length = fr.slots → Calls heap (fr :: outer) (P ++ below)

variable {heap heap' : Heap} {S : Handle → Prop} {roots : List Handle} {fr : Frame} {f : Function}
  {constants : List Constant} {L : Listing} {P : Profile} {outer : List Frame}

/-- The function of a frame is reached through its closure. -/
theorem Runs.reaches (runs : heap.Runs fr f constants L) (root : fr.closure ∈ roots) :
    heap.Reaches roots fr.function := by
  obtain ⟨c, hc, hfunction⟩ := runs.closure
  exact (Reaches.root root).child hc (by simp [Object.children, hfunction])

/-- A frame runs on in a later heap. -/
theorem Runs.endures (runs : heap.Runs fr f constants L) (endures : heap.Endures S heap')
    (root : S fr.closure) : heap'.Runs fr f constants L := by
  obtain ⟨c, hc, heq⟩ := runs.closure
  obtain ⟨hS, c', hc', heq'⟩ := endures.closures _ c root hc
  rw [heq] at hS
  obtain ⟨hfunction, hchildren⟩ := endures.shared _ _ hS runs.function (.inr rfl)
  refine { runs with
    closure := ⟨c', hc', heq'.trans heq⟩, function := hfunction, named := ?_, holds := ?_ }
  · obtain ⟨name, hname⟩ := runs.named
    refine ⟨name, ?_⟩
    cases hn : f.name with
    | none => cases name <;> simp_all [Named]
    | some g =>
        cases name with
        | none => simp [hn, Named] at hname
        | some text =>
            rw [hn] at hname
            exact (endures.shared g _ (hchildren g (by simp [Object.children, hn])) hname
              (.inl rfl)).1
  · refine forall₂_mono runs.holds fun v hv k _ hk => hk.transfer endures.shared fun g hg => ?_
    exact hchildren g (by simp [Object.children, ← hg, Array.mem_toList_iff.mp hv])

/-- The calls around wait on in a later heap. -/
theorem Calls.endures {below : Profile} (calls : heap.Calls outer below)
    (endures : heap.Endures S heap') (root : ∀ fr ∈ outer, S fr.closure) :
    heap'.Calls outer below := by
  induction calls with
  | nil => exact .nil
  | cons hawaits _ hslots ih =>
      obtain ⟨f, constants, L, hruns, hwaits⟩ := hawaits
      exact .cons ⟨f, constants, L, hruns.endures endures (root _ (by simp)), hwaits⟩
        (ih fun fr hfr => root fr (List.mem_cons_of_mem _ hfr)) hslots

end Heap

/-- Where code may be entered, there is code. -/
theorem Listing.At.lt {constants : List Constant} {upvalues offset : Nat} {L : Listing}
    {P : Profile} (isAt : L.At offset P) (typed : L.Typed constants upvalues) :
    offset < L.size := by
  obtain ⟨pre, post, rfl, rfl, henters⟩ := isAt
  cases post with
  | nil => exact henters.elim
  | cons l post =>
      have := typed.real l (by simp)
      simp only [Listing.size_append, Listing.size_cons]
      omega

namespace Machine

/-! ### What a machine keeps alive -/

/-- Everything that a machine keeps alive. -/
def rooted (m : Machine) : List Handle := roots m.stack m.frames m.openCells m.globals

/-- Everything that a machine keeps alive, and some values that it has in its hands. -/
def holding (m : Machine) (hands : List Value) : List Handle :=
  hands.filterMap Value.handle? ++ m.rooted

variable {m m' : Machine} {hands : List Value} {h : Handle}

/-- The roots among the globals: their names and their values. -/
theorem mem_globals : (h ∈ m.globals.toList.flatMap fun (name, value) =>
    name :: value.handle?.toList) ↔
    ∃ name v, m.globals[name]? = some v ∧ (h = name ∨ v = .object h) := by
  simp only [List.mem_flatMap, Prod.exists, Std.TreeMap.mem_toList_iff_getElem?_eq_some,
    List.mem_cons, Option.mem_toList]
  refine exists_congr fun name => exists_congr fun v => and_congr_right fun _ => or_congr_right ?_
  cases v <;> simp [Value.handle?]

/-- The roots of a machine. -/
theorem mem_rooted : h ∈ m.rooted ↔ .object h ∈ m.stack.toList ∨ (∃ fr ∈ m.frames, fr.closure = h) ∨
    (∃ e ∈ m.openCells.entries, e.2 = h) ∨
    ∃ name v, m.globals[name]? = some v ∧ (h = name ∨ v = .object h) := by
  simp only [rooted, roots, List.mem_append, mem_globals, Heap.mem_filterMap_handle?, List.mem_map,
    or_assoc]

/-- The roots of a machine with values in its hands. -/
theorem mem_holding : h ∈ m.holding hands ↔ .object h ∈ hands ∨ h ∈ m.rooted := by
  rw [holding, List.mem_append, Heap.mem_filterMap_handle?]

/-! ### Machines in the middle of an instruction -/

end Machine

/-- A call that is being executed: its frame and its code, and the calls around it with the
profile of their slots. -/
structure Call where
  /-- The frame. -/
  frame : Frame
  /-- The function that it runs. -/
  function : Function
  /-- The constants of the function. -/
  constants : List Constant
  /-- The code of the function. -/
  listing : Listing
  /-- The frames around. -/
  outer : List Frame
  /-- The profile of the slots below the call. -/
  below : Profile
  /-- The closure that is being built, if there is one. -/
  building : Option Handle := none

/-- The call at another offset of its code. -/
def Call.goto (C : Call) (ip : Nat) : Call := { C with frame := { C.frame with ip } }

/-- The call behind some more bytes of its code. -/
def Call.after (C : Call) (n : Nat) : Call := C.goto (C.frame.ip + n)

namespace Machine

/-- A machine that is **poised** executes an instruction of a call. The slots of the call have
a given profile, and some values are in the hands of the machine. -/
structure Poised (m : Machine) (C : Call) (hands : List Value) (P : Profile) : Prop where
  secure : m.heap.Secure m.openCells.entries C.building (m.holding hands)
  frames : m.frames = C.frame :: C.outer
  runs : m.heap.Runs C.frame C.function C.constants C.listing
  calls : m.heap.Calls C.outer C.below
  script : C.outer = [] → C.function.name = none
  slots : C.below.length = C.frame.slots
  height : m.stack.size = P.length + C.below.length
  shares : ∀ e ∈ m.openCells.entries, (P ++ C.below).shares e.1 = true
  inside : C.frame.ip - 1 < C.function.chunk.code.size
  depth : m.frames.length ≤ maxFrames
  room : m.stack.size ≤ m.stackMax

/-- A machine is **ready** for the next instruction. -/
def Ready (m : Machine) : Prop :=
  ∃ C P, m.Poised C [] P ∧ C.building = none ∧ C.listing.At C.frame.ip P

/-- A machine is **idle** between two scripts. -/
structure Idle (m : Machine) : Prop where
  stack : m.stack = #[]
  frames : m.frames = []
  openCells : m.openCells = {}
  secure : m.heap.Secure [] none m.rooted

end Machine

end Lox
