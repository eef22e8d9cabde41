import Mathlib.Data.String.Basic

/-!
# The bytes of a text

A character of ASCII is a single byte in UTF-8, and the same byte occurs in no other character.
All bytes of every other character are too large for ASCII. So a byte of ASCII in the bytes of a
text is a character of the text.

## Main definitions

* `bytesOf` — the bytes of a text.
* `utf8` — the bytes of characters.

## Main results

* `isPrefix_of_utf8` — characters are told by their bytes.
* `count_utf8` — a character of ASCII is as frequent as its byte.
-/

namespace Lox

/-- The bytes of a text in UTF-8. -/
def bytesOf (text : String) : List UInt8 := text.toUTF8.data.toList

/-- The bytes of characters, one character after another. -/
def utf8 (text : List Char) : List UInt8 := text.flatMap String.utf8EncodeChar

variable {text more : List Char} {bytes : List UInt8} {b : UInt8} {c : Char}

@[simp]
theorem utf8_nil : utf8 [] = [] := rfl

@[simp]
theorem utf8_cons (c : Char) (text : List Char) :
    utf8 (c :: text) = String.utf8EncodeChar c ++ utf8 text := by
  simp [utf8]

@[simp]
theorem utf8_append (text more : List Char) : utf8 (text ++ more) = utf8 text ++ utf8 more := by
  simp [utf8]

theorem utf8Encode_eq (text : List Char) : text.utf8Encode = (utf8 text).toByteArray := rfl

/-- The bytes of a text are those of its characters. -/
theorem bytesOf_eq (text : String) : bytesOf text = utf8 text.toList := by
  rw [bytesOf, String.toUTF8_eq_toByteArray, ← String.utf8Encode_toList, utf8Encode_eq]
  simp

/-- How many bytes characters take. -/
theorem length_utf8 (text : List Char) : (utf8 text).length = String.utf8Len text := by
  induction text with
  | nil => rfl
  | cons c text ih =>
      rw [utf8_cons, List.length_append, String.length_utf8EncodeChar, ih, String.utf8Len_cons,
        Nat.add_comm]

/-- A character is one byte of ASCII, or its bytes are too large for ASCII. -/
theorem utf8EncodeChar_cases (c : Char) :
    (c.toNat < 128 ∧ c.utf8Size = 1 ∧ String.utf8EncodeChar c = [c.toUInt8]) ∨
      (128 ≤ c.toNat ∧ ∀ b ∈ String.utf8EncodeChar c, 128 ≤ b.toNat) := by
  have hlarge : ∀ (x m : UInt8), 128 ≤ m.toNat → 128 ≤ (x ||| m).toNat := fun x m hm => by
    rw [UInt8.toNat_or]
    exact hm.trans Nat.right_le_or
  have hsmall : c.toNat < 128 ↔ c.utf8Size = 1 := by
    rw [Char.utf8Size_eq_one_iff, UInt32.le_iff_toNat_le]
    exact Nat.lt_succ_iff
  rcases c.utf8Size_eq with hone | htwo | hthree | hfour
  · exact .inl ⟨hsmall.mpr hone, hone, String.utf8EncodeChar_eq_singleton hone⟩
  all_goals refine .inr ⟨Nat.not_lt.mp fun hlt => ?_, fun b hb => ?_⟩
  · omega
  · rw [String.utf8EncodeChar_eq_cons_cons htwo] at hb
    simp only [List.mem_cons, List.not_mem_nil, or_false] at hb
    rcases hb with rfl | rfl <;> exact hlarge _ _ (by decide)
  · omega
  · rw [String.utf8EncodeChar_eq_cons_cons_cons hthree] at hb
    simp only [List.mem_cons, List.not_mem_nil, or_false] at hb
    rcases hb with rfl | rfl | rfl <;> exact hlarge _ _ (by decide)
  · omega
  · rw [String.utf8EncodeChar_eq_cons_cons_cons_cons hfour] at hb
    simp only [List.mem_cons, List.not_mem_nil, or_false] at hb
    rcases hb with rfl | rfl | rfl | rfl <;> exact hlarge _ _ (by decide)

/-- The byte of a character of ASCII. -/
theorem utf8EncodeChar_of_lt (ascii : c.toNat < 128) : String.utf8EncodeChar c = [c.toUInt8] := by
  rcases utf8EncodeChar_cases c with ⟨-, -, h⟩ | ⟨h, -⟩
  · exact h
  · omega

theorem toNat_toUInt8 (ascii : c.toNat < 128) : c.toUInt8.toNat = c.toNat := by
  simp only [Char.toUInt8, UInt32.toNat_toUInt8]
  exact Nat.mod_eq_of_lt (by simpa using ascii.trans (by decide))

/-- Where the bytes of a text begin with a byte of ASCII, the text begins with its character. -/
theorem exists_of_utf8_eq_cons (begins : utf8 text = b :: bytes) (ascii : b.toNat < 128) :
    ∃ c more, text = c :: more ∧ c.toNat = b.toNat ∧ bytes = utf8 more := by
  cases text with
  | nil => cases begins
  | cons c more =>
      rw [utf8_cons] at begins
      rcases utf8EncodeChar_cases c with ⟨hc, -, hbytes⟩ | ⟨-, hbytes⟩
      · rw [hbytes] at begins
        obtain ⟨rfl, rfl⟩ := List.cons_eq_cons.mp begins
        exact ⟨c, more, rfl, (toNat_toUInt8 hc).symm, rfl⟩
      · cases hchar : String.utf8EncodeChar c with
        | nil => exact absurd hchar String.utf8EncodeChar_ne_nil
        | cons b' rest =>
            rw [hchar] at begins
            obtain ⟨rfl, -⟩ := List.cons_eq_cons.mp begins
            have := hbytes b' (by simp [hchar])
            omega

/-- The same for a given character. -/
theorem utf8_eq_toUInt8_cons (ascii : c.toNat < 128) (begins : utf8 text = c.toUInt8 :: bytes) :
    ∃ more, text = c :: more ∧ bytes = utf8 more := by
  obtain ⟨d, more, rfl, hd, rfl⟩ :=
    exists_of_utf8_eq_cons begins ((toNat_toUInt8 ascii).symm ▸ ascii)
  rw [toNat_toUInt8 ascii] at hd
  exact ⟨more, by rw [Char.toNat_inj.mp hd], rfl⟩

/-- A character of ASCII is as frequent in a text as its byte is in the bytes of the text. -/
theorem count_utf8 (ascii : c.toNat < 128) (text : List Char) :
    (utf8 text).count c.toUInt8 = text.count c := by
  induction text with
  | nil => rfl
  | cons d text ih =>
      rw [utf8_cons, List.count_append, ih, List.count_cons, Nat.add_comm]
      congr 1
      rcases utf8EncodeChar_cases d with ⟨hd, -, hbytes⟩ | ⟨hlarge, hbytes⟩
      · rw [hbytes, List.count_singleton]
        have hiff : d.toUInt8 = c.toUInt8 ↔ d = c := by
          rw [← UInt8.toNat_inj, toNat_toUInt8 hd, toNat_toUInt8 ascii, Char.toNat_inj]
        simp only [beq_iff_eq, hiff]
      · rw [List.count_eq_zero.mpr fun hmem => ?_, if_neg]
        · rintro heq
          rw [beq_iff_eq] at heq
          subst heq
          omega
        · have := hbytes _ hmem
          rw [toNat_toUInt8 ascii] at this
          omega

/-- A character of ASCII is in a text if its byte is. -/
theorem toUInt8_mem_utf8 (ascii : c.toNat < 128) : c.toUInt8 ∈ utf8 text ↔ c ∈ text := by
  rw [← List.count_pos_iff, count_utf8 ascii, List.count_pos_iff]

/-- Characters are told by their bytes. -/
theorem isPrefix_of_utf8 (bytes : utf8 text <+: utf8 more) : text <+: more := by
  obtain ⟨rest, hrest⟩ := bytes
  refine List.isPrefix_of_utf8Encode_append_eq_utf8Encode rest.toByteArray ?_
  rw [utf8Encode_eq, utf8Encode_eq, ← hrest, List.toByteArray_append]

end Lox
