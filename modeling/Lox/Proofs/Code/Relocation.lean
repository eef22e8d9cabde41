import Lox.Proofs.Code.Encoding
import Lox.Proofs.Lists

/-!
# Relocated code

The code of a piece of a program may stand by itself, or behind the code of another piece in the
same function. The jumps are the same in both places, since they are relative. Only operands that
refer to constants differ: they are shifted by the number of constants that stand in front.

Code is cut into instructions by an *outline*, which tells of each instruction its operation and how
many bytes it takes. An outline only ever grows while code is written, and the operand of a jump may
be overwritten without any change to it.

## Main definitions

* `Constant.Kin` — constants that differ in source lines only.
* `Outline`, `Outline.Holes` — instructions, and the operands of jumps among them.
* `Relocates`, `Laid` — an instruction, and code, in two places.

## Main results

* `Laid.overwrite` — overwriting the operand of a jump in both places.
* `Laid.eq_of_shift` — code that is not shifted is the same.
-/

namespace Lox

/-! ### Constants up to lines -/

/-- Templates that differ in the lines of their code only. -/
def Template.Kin (t t' : Template) : Prop := t' = { t with lines := t'.lines }

/-- Constants that differ in the lines of functions only. -/
inductive Constant.Kin : Constant → Constant → Prop
  | number (x : Float) : Kin (.number x) (.number x)
  | text (s : String) : Kin (.text s) (.text s)
  | function {t t' : Template} {ks ks' : List Constant} : t.Kin t' → ks.length = ks'.length →
      (∀ (i : Nat) k k', ks[i]? = some k → ks'[i]? = some k' → Kin k k') →
        Kin (.function t ks) (.function t' ks')

/-- Functions with constants that differ in lines only, one by one. -/
theorem Constant.Kin.function_of {t t' : Template} {ks ks' : List Constant} (templates : t.Kin t')
    (all : List.Forall₂ Constant.Kin ks ks') :
    Constant.Kin (.function t ks) (.function t' ks') := by
  refine .function templates all.length_eq fun i k k' hk hk' => ?_
  have hrel := forall₂_getElem? all i
  rw [hk, hk'] at hrel
  cases hrel with
  | some h => exact h

/-- The constants of functions that differ in lines only. -/
theorem Constant.Kin.constants {t t' : Template} {ks ks' : List Constant}
    (kin : Constant.Kin (.function t ks) (.function t' ks')) :
    List.Forall₂ Constant.Kin ks ks' := by
  cases kin with
  | function _ hlength hall =>
      exact List.forall₂_iff_get.mpr ⟨hlength, fun i hi hi' =>
        hall i _ _ (List.getElem?_eq_getElem hi) (List.getElem?_eq_getElem hi')⟩

/-- Every constant differs from itself in nothing. -/
theorem Constant.Kin.refl : (k : Constant) → k.Kin k
  | .number x => .number x
  | .text s => .text s
  | .function t ks => .function rfl rfl fun i k k' hk hk' => by
      obtain rfl := Option.some.inj (hk.symm.trans hk')
      have : k ∈ ks := List.mem_of_getElem? hk
      exact Constant.Kin.refl k
termination_by k => sizeOf k
decreasing_by
  simp only [Constant.function.sizeOf_spec]
  have := List.sizeOf_lt_of_mem this
  omega

/-! ### Instructions in two places -/

namespace OpCode

/-- Whether the operand of an operation refers to a constant. -/
def isPooled : OpCode → Bool
  | .constant | .getGlobal | .defineGlobal | .setGlobal | .closure => true
  | _ => false

/-- Whether the operand of an operation is a stack slot of its call. -/
def isSlot : OpCode → Bool
  | .getLocal | .setLocal => true
  | _ => false

end OpCode

/-- A captured variable is not the callee of the function around. -/
def Capture.Proper (c : Capture) : Prop := c.isLocal = true → c.index ≠ 0

/-- An instruction of a function with given constants, and the same instruction where further
constants stand in front of them. No operand names the slot of the callee. -/
inductive Relocates (shift : Nat) (constants : List Constant) :
    OpCode → List UInt8 → List UInt8 → Prop
  | plain {op : OpCode} : op.width = 0 → Relocates shift constants op op.plain op.plain
  | short {op : OpCode} {i : UInt8} : op.width = 1 → op.isPooled = false →
      (op.isSlot = true → i ≠ 0) → Relocates shift constants op (op.short i) (op.short i)
  | pooled {op : OpCode} {i j : UInt8} : op.isPooled = true → op ≠ .closure →
      i.toNat < constants.length → j.toNat = shift + i.toNat →
        Relocates shift constants op (op.short i) (op.short j)
  | long {op : OpCode} (high low : UInt8) : op.width = 2 →
      Relocates shift constants op [op.toByte, high, low] [op.toByte, high, low]
  | closure {i j : UInt8} {t : Template} {inner : List Constant} {captures : List Capture} :
      constants[i.toNat]? = some (.function t inner) → captures.length = t.upvalueCount →
      (∀ c ∈ captures, c.Proper) → j.toNat = shift + i.toNat →
        Relocates shift constants .closure
          (OpCode.closure.short i ++ captures.flatMap Capture.bytes)
          (OpCode.closure.short j ++ captures.flatMap Capture.bytes)

/-- The operations of a piece of code and the number of bytes of each instruction. -/
abbrev Outline := List (OpCode × Nat)

namespace Outline

/-- How many bytes the instructions take. -/
def size : Outline → Nat
  | [] => 0
  | entry :: outline => entry.2 + size outline

@[simp]
theorem size_nil : size [] = 0 := rfl

@[simp]
theorem size_cons (entry : OpCode × Nat) (outline : Outline) :
    size (entry :: outline) = entry.2 + size outline := rfl

@[simp]
theorem size_append (first second : Outline) :
    size (first ++ second) = size first + size second := by
  induction first with
  | nil => exact (Nat.zero_add _).symm
  | cons entry first ih => rw [List.cons_append, size_cons, size_cons, ih, Nat.add_assoc]

/-- The operand of a jump is at an offset. -/
def Holes (outline : Outline) (offset : Nat) : Prop :=
  ∃ before op after, outline = before ++ (op, 3) :: after ∧ op.width = 2 ∧
    offset = size before + 1

/-- The operands of jumps stay where they are. -/
theorem Holes.mono {outline more : Outline} {offset : Nat} (holes : outline.Holes offset)
    (grows : outline <+: more) : more.Holes offset := by
  obtain ⟨before, op, after, rfl, hwidth, hoffset⟩ := holes
  obtain ⟨rest, rfl⟩ := grows
  exact ⟨before, op, after ++ rest, by simp, hwidth, hoffset⟩

end Outline

/-! ### Code in two places -/

/-- Code with a given outline, and the same code where further constants stand in front. -/
inductive Laid (shift : Nat) (constants : List Constant) :
    Outline → List UInt8 → List UInt8 → Prop
  | nil : Laid shift constants [] [] []
  | cons {op : OpCode} {bs ds code code' : List UInt8} {outline : Outline} :
      Relocates shift constants op bs ds → Laid shift constants outline code code' →
        Laid shift constants ((op, bs.length) :: outline) (bs ++ code) (ds ++ code')

section

variable {shift : Nat} {constants more : List Constant} {outline before after : Outline}
  {op : OpCode} {bs ds code code' : List UInt8}

/-- More constants make no difference. -/
theorem Relocates.mono (relocates : Relocates shift constants op bs ds)
    (grows : constants <+: more) : Relocates shift more op bs ds := by
  cases relocates with
  | plain h => exact .plain h
  | short h hpool hslot => exact .short h hpool hslot
  | pooled h hclosure hlt hj => exact .pooled h hclosure (hlt.trans_le grows.length_le) hj
  | long high low h => exact .long high low h
  | closure hi hcount hproper hj => exact .closure (getElem?_mono grows hi) hcount hproper hj

/-- Both forms of an instruction take the same number of bytes. -/
theorem Relocates.length_eq (relocates : Relocates shift constants op bs ds) :
    ds.length = bs.length := by
  cases relocates <;> simp

/-- Where nothing stands in front, nothing changes. -/
theorem Relocates.eq_of_shift (relocates : Relocates 0 constants op bs ds) : ds = bs := by
  cases relocates with
  | plain => rfl
  | short => rfl
  | long => rfl
  | pooled _ _ _ hj | closure _ _ _ hj => rw [UInt8.toNat_inj.mp (hj.trans (Nat.zero_add _))]

namespace Laid

/-- More constants make no difference. -/
theorem mono (laid : Laid shift constants outline code code') (grows : constants <+: more) :
    Laid shift more outline code code' := by
  induction laid with
  | nil => exact .nil
  | cons hfirst _ ih => exact .cons (hfirst.mono grows) ih

/-- The outline accounts for all bytes. -/
theorem size_eq (laid : Laid shift constants outline code code') :
    code.length = outline.size ∧ code'.length = outline.size := by
  induction laid with
  | nil => exact ⟨rfl, rfl⟩
  | cons hfirst _ ih => simp [ih.1, ih.2, hfirst.length_eq]

/-- Where nothing stands in front, nothing changes. -/
theorem eq_of_shift (laid : Laid 0 constants outline code code') : code' = code := by
  induction laid with
  | nil => rfl
  | cons hfirst _ ih => rw [hfirst.eq_of_shift, ih]

/-- One piece of code behind another. -/
theorem append {cs cs' : List UInt8} (first : Laid shift constants before code code')
    (second : Laid shift constants after cs cs') :
    Laid shift constants (before ++ after) (code ++ cs) (code' ++ cs') := by
  induction first with
  | nil => exact second
  | cons hfirst _ ih =>
      rw [List.append_assoc, List.append_assoc]
      exact .cons hfirst ih

/-- A single instruction. -/
theorem single (relocates : Relocates shift constants op bs ds) :
    Laid shift constants [(op, bs.length)] bs ds := by
  simpa using Laid.cons relocates .nil

/-- Code that is cut in two. -/
theorem split (laid : Laid shift constants (before ++ after) code code') :
    ∃ front front' rest rest', code = front ++ rest ∧ code' = front' ++ rest' ∧
      Laid shift constants before front front' ∧ Laid shift constants after rest rest' := by
  induction before generalizing code code' with
  | nil => exact ⟨[], [], code, code', rfl, rfl, .nil, laid⟩
  | cons entry before ih =>
      cases laid with
      | @cons _ bs ds _ _ _ hfirst hrest =>
          obtain ⟨front, front', rest, rest', rfl, rfl, hbefore, hafter⟩ := ih hrest
          exact ⟨bs ++ front, ds ++ front', rest, rest', by simp,
            by simp, .cons hfirst hbefore, hafter⟩

/-- The operand of a jump may be overwritten, if that is done in both places. -/
theorem overwrite {offset : Nat} (laid : Laid shift constants outline code code')
    (holes : outline.Holes offset) (high low : UInt8) :
    Laid shift constants outline ((code.set offset high).set (offset + 1) low)
      ((code'.set offset high).set (offset + 1) low) := by
  obtain ⟨before, op, after, rfl, hwidth, rfl⟩ := holes
  obtain ⟨front, front', rest, rest', rfl, rfl, hbefore, hafter⟩ := laid.split
  have hset : ∀ (front tail : List UInt8) (x y z : UInt8), front.length = before.size →
      ((front ++ ([x, y, z] ++ tail)).set (before.size + 1) high).set (before.size + 1 + 1) low =
        front ++ ([x, high, low] ++ tail) := by
    intro front tail x y z hlength
    rw [← hlength, List.set_append_right _ _ (by omega), List.set_append_right _ _ (by omega)]
    have h₁ : front.length + 1 - front.length = 1 := by omega
    have h₂ : front.length + 1 + 1 - front.length = 2 := by omega
    simp [h₁, h₂]
  generalize hentry : (op, 3) = entry at hafter
  cases hafter with
  | @cons op' bs ds tail tail' _ hfirst hrest =>
      obtain ⟨rfl, hthree⟩ := Prod.mk.inj hentry
      cases hfirst with
      | plain h => cases h.symm.trans hwidth
      | short h => cases h.symm.trans hwidth
      | pooled => cases hthree
      | closure => cases hwidth
      | long x y =>
          rw [hset front tail _ _ _ hbefore.size_eq.1, hset front' tail' _ _ _ hbefore.size_eq.2]
          exact hbefore.append (.cons (.long high low hwidth) hrest)

end Laid

end

end Lox
