import Lox.Proofs.Code.Reading
import Lox.Proofs.Code.WellTyped
import Lox.Proofs.Compile.Programs

/-!
# Well-formed bytecode

What the machine relies on when it runs a function, said of the bytes, the lines and the
constants of the function alone: the code falls into instructions, every jump leads to one of
them, operands refer to constants of the right kind and to variables that are there, and one
height of the stack belongs to each instruction on whatever way it is reached.

## Main definitions

* `Heap.Splits` — code that falls into instructions with nothing left over.
* `OpCode.inputs`, `OpCode.outputs`, `OpCode.nexts` — what an instruction does to the stack,
  and where it leads.
* `Heap.WellFormed` — well-formed functions.
* `Heap.Contains` — the functions that a function contains, at any depth.

## Main results

* `compile_wellFormed` — all that the compiler gives back is well formed.
-/

namespace Lox

/-! ### Splitting code -/

namespace Chunk

/-- The constant that the operand byte at an offset refers to. -/
def constantAt? (c : Chunk) (offset : Nat) : Option Value :=
  c.code[offset]?.bind fun i => c.constants[i.toNat]?

end Chunk

namespace Heap

variable (heap : Heap)

/-- The function that a value is. -/
def function? : Value → Option Function
  | .object h =>
    match heap.object? h with
    | some (.function f) => some f
    | _ => none
  | _ => none

/-- How many bytes the instruction at an offset takes. A closure takes two more for every
variable that its function captures. -/
def sizeAt? (c : Chunk) (offset : Nat) : Option Nat :=
  match c.opAt? offset with
  | none => none
  | some .closure =>
    ((c.constantAt? (offset + 1)).bind heap.function?).map fun f => 2 + 2 * f.upvalueCount
  | some op => some (1 + op.width)

/-- From an offset on, code falls into instructions at given offsets with nothing left over. -/
inductive Splits (c : Chunk) : Nat → List Nat → Prop
  | done : Splits c c.code.size []
  | next {offset size : Nat} {starts : List Nat} : heap.sizeAt? c offset = some size →
      offset + size ≤ c.code.size → Splits c (offset + size) starts →
        Splits c offset (offset :: starts)

end Heap

/-! ### Single instructions -/

namespace OpCode

/-- How many values an operation takes off the stack, or looks at. -/
def inputs : OpCode → (operand : Nat) → Nat
  | .pop, _ | .print, _ | .defineGlobal, _ | .closeUpvalue, _ | .giveBack, _ | .not, _
  | .negate, _ | .setLocal, _ | .setGlobal, _ | .setUpvalue, _ | .jumpIfFalse, _ => 1
  | .equal, _ | .greater, _ | .less, _ | .add, _ | .subtract, _ | .multiply, _
  | .divide, _ => 2
  | .call, count => count + 1
  | _, _ => 0

/-- How many values an operation leaves in their place. -/
def outputs : OpCode → Nat
  | .pop | .print | .defineGlobal | .closeUpvalue | .giveBack | .jump | .loop => 0
  | _ => 1

/-- The offsets of the instructions that may be executed after one of a given size. -/
def nexts (op : OpCode) (operand offset size : Nat) : List Nat :=
  match op with
  | .giveBack => []
  | .jump => [offset + size + operand]
  | .jumpIfFalse => [offset + size, offset + size + operand]
  | .loop => [offset + size - operand]
  | _ => [offset + size]

end OpCode

namespace Heap

variable (heap : Heap) (f : Function)

/-- What an instruction of a function demands of its operand, where the stack has a given
height. A closure is on the stack when it captures its variables, and may capture itself. -/
def Demands (offset height : Nat) : OpCode → (operand : Nat) → Prop
  | .constant, i => i < f.chunk.constants.size
  | .getLocal, slot | .setLocal, slot => slot < height
  | .getGlobal, i | .setGlobal, i | .defineGlobal, i =>
    ∃ h text, f.chunk.constants[i]? = some (.object h) ∧ heap.object? h = some (.string text)
  | .getUpvalue, i | .setUpvalue, i => i < f.upvalueCount
  | .closure, i =>
    ∃ inner, (f.chunk.constants[i]?.bind heap.function?) = some inner ∧
      ∀ j < inner.upvalueCount, ∃ kind index : UInt8,
        f.chunk.code[offset + 2 + 2 * j]? = some kind ∧
        f.chunk.code[offset + 2 + 2 * j + 1]? = some index ∧
        index.toNat < if kind = 1 then height + 1 else f.upvalueCount
  | .loop, distance => distance ≤ offset + 3
  | _, _ => True

/-- The instruction at an offset finds what it needs, and leads to instructions of the same
code, for which the stack has the height that belongs to them. -/
def Executes (starts : List Nat) (height : Nat → Nat) (offset : Nat) : Prop :=
  ∃ op operand size, f.chunk.opAt? offset = some op ∧
    Machine.operandAt? f.chunk op (offset + 1) = some operand ∧
    heap.sizeAt? f.chunk offset = some size ∧
    heap.Demands f offset (height offset) op operand ∧
    op.inputs operand ≤ height offset ∧
    ∀ next ∈ op.nexts operand offset size,
      next ∈ starts ∧ height next + op.inputs operand = height offset + op.outputs

/-- A **well-formed** function. -/
structure WellFormed : Prop where
  /-- Every byte of code has a source line. -/
  lines : f.chunk.lines.size = f.chunk.code.size
  /-- The code falls into instructions that can be executed, and ends with a return. -/
  code : ∃ (starts : List Nat) (height : Nat → Nat) (before : List Nat) (last : Nat),
    heap.Splits f.chunk 0 starts ∧ height 0 = f.arity + 1 ∧
    (∀ offset ∈ starts, heap.Executes f starts height offset) ∧
    starts = before ++ [last, last + 1] ∧ f.chunk.opAt? last = some .pushNil ∧
    f.chunk.opAt? (last + 1) = some .giveBack ∧ last + 2 = f.chunk.code.size

/-- The objects that a function contains: itself, and the constants of what it contains. -/
inductive Contains (script : Handle) : Handle → Prop
  | self : Contains script script
  | constant {g h : Handle} {f : Function} : Contains script g →
      heap.object? g = some (.function f) → .object h ∈ f.chunk.constants.toList →
        Contains script h

end Heap

/-! ### Instructions of a listing -/

variable {constants : List Constant} {upvalues offset operand : Nat} {L pre post : Listing}
  {l : Line} {P : Profile} {bs : List UInt8} {op : OpCode} {c : Chunk}

namespace Listing

/-- The offsets of the instructions of a listing that starts at a given offset. -/
def starts : (offset : Nat) → Listing → List Nat
  | _, [] => []
  | offset, l :: L => offset :: starts (offset + l.bytes.length) L

/-- The height of the stack in front of the instruction at an offset. -/
def height : Listing → (offset : Nat) → Nat
  | [], _ => 0
  | l :: L, offset =>
    if offset = 0 then l.profile.length else height L (offset - l.bytes.length)

/-- The instructions of a listing start behind those in front of it. -/
theorem starts_append (offset : Nat) (L M : Listing) :
    starts offset (L ++ M) = starts offset L ++ starts (offset + L.size) M := by
  induction L generalizing offset with
  | nil => simp [starts]
  | cons l L ih => simp [starts, ih, Nat.add_assoc]

/-- The instructions of a listing start at the sizes of what stands in front of them. -/
theorem mem_starts {from' offset : Nat} :
    offset ∈ starts from' L ↔ ∃ (pre : Listing) (l : Line) (post : Listing),
      L = pre ++ l :: post ∧ offset = from' + pre.size := by
  induction L generalizing from' with
  | nil => simp [starts]
  | cons l L ih =>
      rw [starts, List.mem_cons, ih]
      constructor
      · rintro (rfl | ⟨pre, l', post, rfl, rfl⟩)
        · exact ⟨[], l, L, rfl, rfl⟩
        · exact ⟨l :: pre, l', post, rfl, by rw [size_cons]; omega⟩
      · rintro ⟨_ | ⟨l', pre⟩, m, post, hsplit, rfl⟩
        · exact .inl rfl
        · obtain ⟨rfl, rfl⟩ := List.cons_eq_cons.mp hsplit
          exact .inr ⟨pre, m, post, rfl, by rw [size_cons]; omega⟩

/-- The height at an instruction is that of its profile. -/
theorem height_eq (real : ∀ l ∈ pre, 0 < l.bytes.length) :
    height (pre ++ l :: post) pre.size = l.profile.length := by
  induction pre with
  | nil => rfl
  | cons l' pre ih =>
      have hpos := real l' (by simp)
      rw [List.cons_append, height, size_cons, if_neg (by omega), Nat.add_sub_cancel_left]
      exact ih fun l hl => real l (List.mem_cons_of_mem _ hl)

/-- Where a listing may be entered, an instruction starts, with the height of the profile. -/
theorem At.spec (isAt : L.At offset P) (real : ∀ l ∈ L, 0 < l.bytes.length) :
    offset ∈ L.starts 0 ∧ L.height offset = P.length := by
  obtain ⟨pre, post, rfl, rfl, henters⟩ := isAt
  cases post with
  | nil => exact henters.elim
  | cons l post =>
      refine ⟨mem_starts.mpr ⟨pre, l, post, rfl, (Nat.zero_add _).symm⟩, ?_⟩
      rw [height_eq fun l hl => real l (by simp [hl])]
      exact henters.length_eq.symm

end Listing

/-! ### Typed functions are well formed -/

section

variable {heap : Heap} {f : Function} {k : Constant}

/-- A constant that resolves to a function is a function. -/
theorem Heap.Holds.function? {v : Value} {t : Template} {inner : List Constant}
    (holds : heap.Holds v (.function t inner)) :
    ∃ g, heap.function? v = some g ∧ g.upvalueCount = t.upvalueCount := by
  cases holds with
  | function hf => exact ⟨_, by simp [Heap.function?, hf], rfl⟩

/-- The size of a simple instruction. -/
theorem sizeAt?_of_form (reads : c.Reads offset bs) (form : OpCode.Form op operand bs)
    (simple : op ≠ .closure) : heap.sizeAt? c offset = some bs.length := by
  rw [Heap.sizeAt?, reads.opAt? form]
  cases form with
  | plain hwidth | short hwidth | long hwidth =>
      cases op <;> first | rfl | exact absurd rfl simple | cases hwidth
  | closure => exact absurd rfl simple

/-- The size of a closure. -/
theorem sizeAt?_of_closure {i : UInt8} {captures : List Capture} {t : Template}
    {inner : List Constant}
    (reads : c.Reads offset (OpCode.closure.short i ++ captures.flatMap Capture.bytes))
    (holds : heap.HoldsAll c.constants constants)
    (found : constants[i.toNat]? = some (.function t inner))
    (count : captures.length = t.upvalueCount) :
    ∃ g, (c.constants[i.toNat]?.bind heap.function?) = some g ∧ g.upvalueCount = captures.length ∧
      heap.sizeAt? c offset = some (2 + 2 * captures.length) := by
  obtain ⟨v, hv, hfunction⟩ := holds.value found
  obtain ⟨g, hg, hcount⟩ := hfunction.function?
  refine ⟨g, by simp [hv, hg], hcount.trans count.symm, ?_⟩
  have hbyte : c.code[offset + 1]? = some i := by
    rw [reads 1 (by simp [OpCode.short])]
    simp [OpCode.short]
  rw [Heap.sizeAt?, reads.opAt? (.closure captures)]
  simp [Chunk.constantAt?, hbyte, hv, hg, hcount, count]

/-- An instruction can be executed if it finds what it needs and leads to places that may be
entered with what it leaves. -/
theorem executes_of_nexts {size : Nat} (operation : f.chunk.opAt? offset = some op)
    (reading : Machine.operandAt? f.chunk op (offset + 1) = some operand)
    (taken : heap.sizeAt? f.chunk offset = some size) (real : ∀ l ∈ L, 0 < l.bytes.length)
    (here : L.height offset = P.length) (demands : heap.Demands f offset P.length op operand)
    (enough : op.inputs operand ≤ P.length)
    (leads : ∀ next ∈ op.nexts operand offset size, ∃ Q : Profile, L.At next Q ∧
      Q.length + op.inputs operand = P.length + op.outputs) :
    heap.Executes f (L.starts 0) L.height offset := by
  refine ⟨op, operand, size, operation, reading, taken, here ▸ demands, here ▸ enough, ?_⟩
  intro next hnext
  obtain ⟨Q, hQ, hheight⟩ := leads next hnext
  obtain ⟨hmem, hlength⟩ := hQ.spec real
  exact ⟨hmem, by rw [hlength, here, hheight]⟩

/-- A simple instruction can be executed. -/
theorem executes_of_form (reads : f.chunk.Reads offset bs) (form : OpCode.Form op operand bs)
    (simple : op ≠ .closure) (real : ∀ l ∈ L, 0 < l.bytes.length)
    (here : L.height offset = P.length) (demands : heap.Demands f offset P.length op operand)
    (enough : op.inputs operand ≤ P.length)
    (leads : ∀ next ∈ op.nexts operand offset bs.length, ∃ Q : Profile, L.At next Q ∧
      Q.length + op.inputs operand = P.length + op.outputs) :
    heap.Executes f (L.starts 0) L.height offset ∧
      heap.sizeAt? f.chunk offset = some bs.length :=
  have hsize := sizeAt?_of_form reads form simple
  ⟨executes_of_nexts (reads.opAt? form)
    (reads.operandAt? form) hsize real here demands enough leads,
    hsize⟩

/-- A simple instruction with one way on. -/
theorem executes_onward {next : Nat} {Q : Profile} (reads : f.chunk.Reads offset bs)
    (form : OpCode.Form op operand bs) (simple : op ≠ .closure)
    (real : ∀ l ∈ L, 0 < l.bytes.length) (here : L.height offset = P.length)
    (demands : heap.Demands f offset P.length op operand) (enough : op.inputs operand ≤ P.length)
    (onward : op.nexts operand offset bs.length = [next]) (target : L.At next Q)
    (height : Q.length + op.inputs operand = P.length + op.outputs) :
    heap.Executes f (L.starts 0) L.height offset ∧
      heap.sizeAt? f.chunk offset = some bs.length := by
  refine executes_of_form reads form simple real here demands enough fun x hx => ⟨Q, ?_, height⟩
  rw [onward] at hx
  exact List.mem_singleton.mp hx ▸ target

/-- The bytes behind a closure that say what it captures. -/
theorem Chunk.Reads.captures {i : UInt8} {captures : List Capture}
    (reads : c.Reads offset (OpCode.closure.short i ++ captures.flatMap Capture.bytes)) {k : Nat}
    (inside : k < 2 * captures.length) :
    c.code[offset + 2 + k]? = (captures.flatMap Capture.bytes)[k]? := by
  have hlength := length_captures captures
  have hshort := OpCode.length_short .closure i
  rw [Nat.add_assoc, reads (2 + k) (by rw [List.length_append]; omega),
    List.getElem?_append_right (by omega), hshort, Nat.add_sub_cancel_left]

/-- A closure can be executed if what it captures can be reached. -/
theorem closure_executes {i : UInt8} {captures : List Capture} {t : Template}
    {inner : List Constant} {b : Bool}
    (reads : f.chunk.Reads offset (OpCode.closure.short i ++ captures.flatMap Capture.bytes))
    (holds : heap.HoldsAll f.chunk.constants constants)
    (found : constants[i.toNat]? = some (.function t inner))
    (count : captures.length = t.upvalueCount)
    (reachable : ∀ c ∈ captures, c.Reachable (b :: P) f.upvalueCount)
    (target : L.At (offset + 2 + 2 * captures.length) (b :: P))
    (real : ∀ l ∈ L, 0 < l.bytes.length) (here : L.height offset = P.length) :
    heap.Executes f (L.starts 0) L.height offset ∧ heap.sizeAt? f.chunk offset =
      some (OpCode.closure.short i ++ captures.flatMap Capture.bytes).length := by
  obtain ⟨g, hg, hupvalues, hsize⟩ := sizeAt?_of_closure reads holds found count
  rw [List.length_append, length_captures, OpCode.length_short]
  refine ⟨executes_of_nexts (reads.opAt? (.closure captures))
    (reads.operandAt? (.closure captures)) hsize real here ⟨g, hg, fun j hj => ?_⟩ (Nat.zero_le _)
    fun next hnext => ⟨b :: P, ?_, rfl⟩, hsize⟩
  · rw [hupvalues] at hj
    obtain ⟨hkind, hindex⟩ := getElem?_captures hj
    refine ⟨_, captures[j].index, (reads.captures (by omega)).trans hkind, ?_, ?_⟩
    · rw [Nat.add_assoc]
      exact (reads.captures (by omega)).trans hindex
    · have hreach := reachable _ (List.getElem_mem hj)
      unfold Capture.Reachable at hreach
      split at hreach
      · rename_i hlocal
        simpa [hlocal] using Profile.lt_of_shares hreach
      · rename_i hlocal
        simpa [hlocal] using hreach
  · rw [List.mem_singleton.mp hnext, ← Nat.add_assoc]
    exact target

/-- A typed instruction can be executed. -/
theorem executes (reads : f.chunk.Reads offset bs)
    (holds : heap.HoldsAll f.chunk.constants constants)
    (fits : Fits constants f.upvalueCount L offset P bs)
    (real : ∀ l ∈ L, 0 < l.bytes.length) (here : L.height offset = P.length) :
    heap.Executes f (L.starts 0) L.height offset ∧
      heap.sizeAt? f.chunk offset = some bs.length := by
  cases fits with
  | @literal op _ hop hnext =>
      cases op <;> first
        | exact absurd hop (by decide)
        | exact executes_onward reads (.plain rfl (by decide)) nofun real here trivial
            (Nat.zero_le _) rfl hnext rfl
  | constant hi _ hnext =>
      obtain ⟨hsize, -⟩ := Heap.holdsAll_iff.mp holds
      have hlt := (List.getElem?_eq_some_iff.mp hi).1
      exact executes_onward reads (.short rfl nofun) nofun real here
        (Nat.lt_of_lt_of_eq hlt hsize.symm) (Nat.zero_le _) rfl hnext rfl
  | @drop op _ hop _ hnext =>
      cases op <;> first
        | exact absurd hop (by decide)
        | exact executes_onward reads (.plain rfl (by decide)) nofun real here trivial
            (Nat.succ_pos _) rfl hnext rfl
  | closeUpvalue _ hnext =>
      exact executes_onward reads (.plain rfl (by decide)) nofun real here trivial
        (Nat.succ_pos _) rfl hnext rfl
  | getLocal hi hnext =>
      exact executes_onward reads (.short rfl nofun) nofun real here hi
        (Nat.zero_le _) rfl hnext rfl
  | setLocal hi hnext =>
      exact executes_onward reads (.short rfl nofun) nofun real here (Nat.lt_succ_of_lt hi)
        (Nat.succ_pos _) rfl hnext rfl
  | getGlobal hname hnext =>
      exact executes_onward reads (.short rfl nofun) nofun real here (holds.name hname)
        (Nat.zero_le _) rfl hnext rfl
  | defineGlobal hname _ hnext =>
      exact executes_onward reads (.short rfl nofun) nofun real here (holds.name hname)
        (Nat.succ_pos _) rfl hnext rfl
  | setGlobal hname _ hnext =>
      exact executes_onward reads (.short rfl nofun) nofun real here (holds.name hname)
        (Nat.succ_pos _) rfl hnext rfl
  | getUpvalue hi hnext =>
      exact executes_onward reads (.short rfl nofun) nofun real here hi
        (Nat.zero_le _) rfl hnext rfl
  | setUpvalue hi _ hnext =>
      exact executes_onward reads (.short rfl nofun) nofun real here hi
        (Nat.succ_pos _) rfl hnext rfl
  | @unary op _ hop _ hnext =>
      cases op <;> first
        | exact absurd hop (by decide)
        | exact executes_onward reads (.plain rfl (by decide)) nofun real here trivial
            (Nat.succ_pos _) rfl hnext rfl
  | @binary op _ hop _ hnext =>
      cases op <;> first
        | exact absurd hop (by decide)
        | exact executes_onward reads (.plain rfl (by decide)) nofun real here trivial
            (Nat.le_add_left 2 _) rfl hnext rfl
  | jump hshort htarget =>
      exact executes_onward reads (.long rfl nofun hshort) nofun real here trivial
        (Nat.zero_le _) rfl
        htarget rfl
  | jumpIfFalse hshort _ hnext htarget =>
      refine executes_of_form reads (.long rfl nofun hshort) nofun real here trivial
        (Nat.succ_pos _) fun next hmem => ?_
      rcases List.mem_cons.mp hmem with rfl | hmem
      · exact ⟨_, hnext, rfl⟩
      · exact ⟨_, List.mem_singleton.mp hmem ▸ htarget, rfl⟩
  | loop hshort hback htarget =>
      exact executes_onward reads (.long rfl nofun hshort) nofun real here hback (Nat.zero_le _) rfl
        htarget rfl
  | @call count P _ hnext =>
      refine executes_onward reads (.short rfl nofun) nofun real here trivial ?_ rfl hnext ?_
      · simp [OpCode.inputs]
      · simp [OpCode.inputs, OpCode.outputs]
        omega
  | closure hfound hcount hreachable hnext =>
      exact closure_executes reads holds hfound hcount hreachable hnext real here
  | giveBack =>
      exact executes_of_form reads (.plain rfl (by decide)) nofun real here trivial
        (Nat.succ_pos _) nofun

/-- The size of an instruction of typed code. -/
theorem sizeAt?_of_typed (code : f.chunk.code.toList = L.code)
    (holds : heap.HoldsAll f.chunk.constants constants) (typed : L.Typed constants f.upvalueCount)
    (split : L = pre ++ l :: post) : heap.sizeAt? f.chunk pre.size = some l.bytes.length := by
  have hheight : L.height pre.size = l.profile.length := by
    rw [split]
    exact Listing.height_eq fun l hl => typed.real l (by simp [split, hl])
  exact (executes (Listing.reads (code.trans (by rw [split]))) holds (typed pre l post split)
    typed.real hheight).2

/-- Typed code falls into its instructions. -/
theorem splits_of_typed (code : f.chunk.code.toList = L.code)
    (holds : heap.HoldsAll f.chunk.constants constants) (typed : L.Typed constants f.upvalueCount)
    (split : L = pre ++ post) : heap.Splits f.chunk pre.size (post.starts pre.size) := by
  induction post generalizing pre with
  | nil =>
      rw [List.append_nil] at split
      subst split
      have hsize : L.size = f.chunk.code.size := by
        rw [Listing.size, ← code, Array.length_toList]
      rw [hsize]
      exact .done
  | cons l post ih =>
      refine .next (sizeAt?_of_typed code holds typed split) ?_ ?_
      · rw [← Array.length_toList, code, split]
        simp only [Listing.code_append, Listing.code_cons, List.length_append, Listing.size]
        omega
      · have := ih (show L = (pre ++ [l]) ++ post by simp [split])
        simpa using this

/-- Typed functions are well formed. -/
theorem wellFormed_of_listed {name : Option String}
    (holds : heap.HoldsAll f.chunk.constants constants)
    (listed : (f.template name).Listed constants) : heap.WellFormed f := by
  obtain ⟨hlines, -, L, own, ⟨body, P, hbody, -⟩, hcode, harity, henters, htyped⟩ := listed
  have code : f.chunk.code.toList = L.code := hcode.symm
  have real := htyped.real
  refine ⟨by simpa [Function.template] using hlines, L.starts 0, L.height, body.starts 0, body.size,
    splits_of_typed code holds htyped (List.nil_append L).symm, ?_, fun offset hmem => ?_,
    ?_, ?_, ?_, ?_⟩
  · have hstart : L.At 0 own := ⟨[], L, rfl, rfl, henters⟩
    exact (hstart.spec real).2.trans harity
  · obtain ⟨pre, l, post, hsplit, rfl⟩ := Listing.mem_starts.mp hmem
    rw [Nat.zero_add]
    have hheight : L.height pre.size = l.profile.length := by
      rw [hsplit]
      exact Listing.height_eq fun l hl => real l (by simp [hsplit, hl])
    exact (executes (Listing.reads (code.trans (by rw [hsplit]))) holds (htyped pre l post hsplit)
      real hheight).1
  · rw [hbody, Listing.starts_append, Nat.zero_add]
    rfl
  · have hfirst : f.chunk.code.toList =
        Listing.code (body ++ ⟨P, OpCode.pushNil.plain⟩ :: [⟨false :: P, OpCode.giveBack.plain⟩]) :=
      code.trans (by rw [hbody]; rfl)
    exact (Listing.reads hfirst).opAt? (.plain rfl (by decide))
  · have hlast : f.chunk.code.toList = Listing.code ((body ++ [⟨P, OpCode.pushNil.plain⟩]) ++
        [⟨false :: P, OpCode.giveBack.plain⟩]) := by
      rw [code, hbody, Listing.ending, List.append_assoc]
      rfl
    have := (Listing.reads hlast).opAt? (.plain rfl (by decide))
    simpa using this
  · rw [← Array.length_toList, code, hbody]
    simp [Listing.ending, Listing.size]

/-- What is said of a function, if it is said of its constants too, is said of every function that
it contains. -/
theorem holds_of_contains {Q : Constant → Prop} {script g : Handle}
    (holds : heap.Holds (.object script) k) (fine : Q k)
    (inner : ∀ t ks, Q (.function t ks) → ∀ k ∈ ks, Q k) (contains : heap.Contains script g) :
    ∃ k, heap.Holds (.object g) k ∧ Q k := by
  induction contains with
  | self => exact ⟨k, holds, fine⟩
  | @constant g h f _ hf hmem ih =>
      obtain ⟨k, holds, fine⟩ := ih
      obtain ⟨name, constants, rfl, -, hall⟩ := (Heap.holds_function_iff hf).mp holds
      obtain ⟨k, hk, hholds⟩ := exists_of_forall₂ hall.flip hmem
      exact ⟨k, hholds, inner _ _ fine k hk⟩

/-- The constants of a typed function are typed. -/
theorem Constant.Typed.inner {t : Template} {ks : List Constant}
    (typed : (Constant.function t ks).Typed) : ∀ k ∈ ks, k.Typed := by
  cases typed with
  | function _ hinner => exact hinner

end

/-- All that the compiler gives back is **well formed**: the function of the script, and every
function that it contains. -/
theorem compile_wellFormed {source : String} {held : List Handle} {heap heap' : Heap}
    {script : Handle} (valid : heap.Valid) (live : ∀ h ∈ held, heap.Live h)
    (run : compile (.ofSource source) held heap = .ok (.ok script) heap') :
    (∃ f, heap'.object? script = some (.function f)) ∧
      ∀ g f, heap'.Contains script g → heap'.object? g = some (.function f) →
        heap'.WellFormed f := by
  obtain ⟨-, -, program, t, constants, -, holds, hscript, hcompiled⟩ :=
    compile_sound (terminated_ofSource source) valid live run
  have typed : (Constant.function t constants).Typed :=
    .function hscript.listed fun k hk => (hcompiled k hk).typed
  refine ⟨?_, fun g f hcontains hf => ?_⟩
  · cases holds with
    | function hf => exact ⟨_, hf⟩
  · obtain ⟨k, hholds, htyped⟩ :=
      holds_of_contains holds typed (fun _ _ => Constant.Typed.inner) hcontains
    obtain ⟨name, constants', rfl, -, hall⟩ := (Heap.holds_function_iff hf).mp hholds
    cases htyped with
    | function hlisted _ => exact wellFormed_of_listed hall hlisted

/-- A counter whose inner function captures a variable of the outer one. -/
def counterSource : String :=
  "fun f() { var i = 0; fun g() { i = i + 1; return i; } return g; } print f()();"

/-- The script of the counter, which contains two more functions, is well formed. -/
theorem compile_wellFormed_counter :
    ∃ script heap', compile (.ofSource counterSource) [] (.empty {}) = .ok (.ok script) heap' ∧
      (∃ f, heap'.object? script = some (.function f)) ∧
      ∀ g f, heap'.Contains script g → heap'.object? g = some (.function f) →
        heap'.WellFormed f := by
  have accepted : (match compile (.ofSource counterSource) [] (.empty {}) with
      | .ok (.ok _) _ => true
      | _ => false) = true := by
    decide +kernel
  split at accepted
  · rename_i script heap' run
    exact ⟨script, heap', run,
      compile_wellFormed (Heap.valid_empty {}) (fun _ h => absurd h List.not_mem_nil) run⟩
  · cases accepted

end Lox
