import Lox.Proofs.Code.Relocation

/-!
# Lines of code

A function has a source line for every byte of its code. The bytes of one instruction, be they its
operand or the captured variables behind it, all have the same line.

How code falls into instructions is told by its outline, and overwriting the operand of a jump
changes neither the outline nor a line. So whatever the lines of an outline are when it is written,
they stay.

## Main definitions

* `Outline.Lined` — lines for code with a given outline.
* `Template.Lined`, `Constant.Lined` — functions that have one line for each instruction.

## Main results

* `Outline.Lined.uniform` — the line of an instruction.
-/

namespace Lox

namespace Outline

/-- Lines for code with a given outline: one for each instruction, repeated for all its bytes. -/
inductive Lined : Outline → List Nat → Prop
  | nil : Lined [] []
  | cons {op : OpCode} {n line : Nat} {outline : Outline} {lines : List Nat} :
      Lined outline lines → Lined ((op, n) :: outline) (List.replicate n line ++ lines)

variable {outline before after : Outline} {lines more : List Nat} {op : OpCode} {n : Nat}

/-- The lines of a single instruction. -/
theorem Lined.single (op : OpCode) (n line : Nat) : Lined [(op, n)] (List.replicate n line) := by
  simpa using (.cons .nil : Lined ((op, n) :: []) (List.replicate n line ++ []))

/-- The lines of one piece of code behind those of another. -/
theorem Lined.append (first : before.Lined lines) (second : after.Lined more) :
    Outline.Lined (before ++ after) (lines ++ more) := by
  induction first with
  | nil => exact second
  | cons _ ih =>
      rw [List.append_assoc]
      exact .cons ih

/-- All bytes of an instruction have the same line. -/
theorem Lined.uniform (lined : Outline.Lined (before ++ (op, n) :: after) lines) :
    ∃ line, ∀ k < n, lines[before.size + k]? = some line := by
  induction before generalizing lines with
  | nil =>
      cases lined with
      | @cons _ _ line _ rest _ =>
          refine ⟨line, fun k hk => ?_⟩
          rw [size_nil, Nat.zero_add, List.getElem?_append_left (by simpa using hk),
            List.getElem?_replicate_of_lt hk]
  | cons entry before ih =>
      cases lined with
      | @cons _ m _ _ rest hrest =>
          obtain ⟨line, hline⟩ := ih hrest
          refine ⟨line, fun k hk => ?_⟩
          rw [← hline k hk, size_cons, Nat.add_assoc,
            List.getElem?_append_right (by simp), List.length_replicate, Nat.add_sub_cancel_left]

end Outline

/-! ### Functions -/

/-- Code that stands in two places stands in one. -/
theorem Laid.alone {shift : Nat} {constants : List Constant} {outline : Outline}
    {code code' : List UInt8} (laid : Laid shift constants outline code code') :
    Laid 0 constants outline code code := by
  induction laid with
  | nil => exact .nil
  | cons hfirst _ ih =>
      refine .cons ?_ ih
      cases hfirst with
      | plain h => exact .plain h
      | short h hpool hslot => exact .short h hpool hslot
      | pooled h hclosure hlt _ => exact .pooled h hclosure hlt (Nat.zero_add _).symm
      | long high low h => exact .long high low h
      | closure hi hcount hproper _ => exact .closure hi hcount hproper (Nat.zero_add _).symm

/-- The code of a function falls into instructions that have one line each. -/
def Template.Lined (t : Template) (constants : List Constant) : Prop :=
  ∃ outline, Laid 0 constants outline t.code t.code ∧ outline.Lined t.lines

/-- A constant that has one line for each instruction if it is a function, and so have the functions
among its own constants. -/
inductive Constant.Lined : Constant → Prop
  | number (x : Float) : Lined (.number x)
  | text (s : String) : Lined (.text s)
  | function {t : Template} {constants : List Constant} : t.Lined constants →
      (∀ k ∈ constants, Lined k) → Lined (.function t constants)

/-- The constants of a function that has one line for each instruction. -/
theorem Constant.Lined.inner {t : Template} {ks : List Constant}
    (lined : (Constant.function t ks).Lined) : ∀ k ∈ ks, k.Lined := by
  cases lined with
  | function _ hinner => exact hinner

end Lox
