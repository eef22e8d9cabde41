import Lox.Number.Shortest
import Lox.Proofs.Number.Rounding
import Mathlib.Algebra.Order.Field.Power

/-!
# The decimal that is printed

The search for the shortest decimal always finds one, and what it finds lies in the interval that is
searched. Seventeen digits are enough, because the steps of that grid are shorter than the interval
is wide; whichever of the two points around the value is nearer than its end of the interval is in
it.

## Main definitions

* `Decimal.value` — the number that a decimal denotes.

## Main results

* `Decimal.value_trimmed` — trailing zeros.
* `Binary64.Span.contains_of_gridPoint` — what is found on a grid.
* `Binary64.contains_shortest` — the decimal that is printed for a magnitude.
-/

namespace Lox

namespace Decimal

/-- The number that a decimal denotes. -/
def value (d : Decimal) : ℚ := d.digits * 10 ^ d.exponent

theorem powerOfTen_eq (n : Nat) : powerOfTen n = 10 ^ n := rfl

theorem powerOfTen_pos (n : Nat) : 0 < powerOfTen n := Nat.pow_pos (by decide)

/-- An integral power of ten as a quotient of whole ones. -/
theorem zpow_eq_div (e : Int) :
    (10 : ℚ) ^ e = powerOfTen e.toNat / powerOfTen (-e).toNat := by
  rw [powerOfTen_eq, powerOfTen_eq, Nat.cast_pow, Nat.cast_pow, Nat.cast_ofNat, ← zpow_natCast,
    ← zpow_natCast, ← zpow_sub₀ (by norm_num)]
  congr 1
  omega

/-- A decimal as a fraction. -/
theorem value_eq_div (d : Decimal) : d.value =
    ((d.digits * powerOfTen d.exponent.toNat : Nat) : ℚ) /
      (powerOfTen (-d.exponent).toNat : Nat) := by
  rw [value, zpow_eq_div, Nat.cast_mul, mul_div_assoc]

/-- Without trailing zeros a decimal denotes the same number. -/
theorem value_trimmed (d : Decimal) : d.trimmed.value = d.value := by
  induction d using trimmed.induct with
  | case1 d h ih =>
      rw [trimmed, dif_pos h, ih]
      have hdigits : d.digits = 10 * (d.digits / 10) := by omega
      have hcast : (d.digits : ℚ) = 10 * (d.digits / 10 : Nat) := by exact_mod_cast hdigits
      rw [value, value, hcast, zpow_add_one₀ (by norm_num)]
      ring
  | case2 d h => rw [trimmed, dif_neg h]

theorem length_pos (n : Nat) : 0 < length n := Nat.length_toDigits_pos

/-- A number is below the power of ten with as many zeros as it has digits. -/
theorem lt_pow_length (n : Nat) : n < 10 ^ length n :=
  (Nat.length_toDigits_le_iff (by decide) (length_pos n)).mp le_rfl

/-- A number reaches the power of ten with one zero less. -/
theorem pow_length_le {n : Nat} (pos : 0 < n) : 10 ^ (length n - 1) ≤ n := by
  by_contra hlt
  by_cases hlength : length n - 1 = 0
  · rw [hlength] at hlt
    omega
  · have := (Nat.length_toDigits_le_iff (by decide) (Nat.pos_of_ne_zero hlength)).mpr
      (not_le.mp hlt)
    change length n ≤ length n - 1 at this
    omega

end Decimal

namespace Binary64

open Decimal (powerOfTen powerOfTen_pos)

namespace Span

variable {span : Span} {d : Decimal} {e : Int}

theorem one_pos : 0 < one := Nat.mul_pos (by decide) Binary64.one_pos

/-- What is measured on a finer scale lies in the interval if the number does. -/
theorem holds_iff (span : Span) (e : Int) (n : Nat) :
    span.holds (powerOfTen (-e).toNat) (n * (powerOfTen e.toNat * one)) = true ↔
      span.Contains (Decimal.value ⟨n, e⟩) := by
  have hfactor : (0 : ℚ) < powerOfTen (-e).toNat := by exact_mod_cast powerOfTen_pos _
  have hscale : Decimal.value ⟨n, e⟩ * one =
      ((n * (powerOfTen e.toNat * one) : Nat) : ℚ) / powerOfTen (-e).toNat := by
    rw [Decimal.value_eq_div, div_mul_eq_mul_div, ← Nat.cast_mul, Nat.mul_assoc]
  simp only [holds, Contains, hscale, le_div_iff₀ hfactor, div_le_iff₀ hfactor, lt_div_iff₀ hfactor,
    div_lt_iff₀ hfactor]
  split <;> simp only [Bool.and_eq_true, decide_eq_true_eq] <;> exact_mod_cast Iff.rfl

/-- The point found on a grid lies in the interval. -/
theorem contains_of_gridPoint (found : span.gridPoint? e = some d) : span.Contains d.value := by
  unfold gridPoint? at found
  dsimp only at found
  split at found
  · rename_i hbelow habove
    cases found
    rcases roundQuotient_cases (span.middle * powerOfTen (-e).toNat) (powerOfTen e.toNat * one) with
      ⟨hdown, -⟩ | ⟨hup, -⟩
    · rw [hdown]
      exact (holds_iff span e _).mp hbelow
    · rw [hup]
      exact (holds_iff span e _).mp habove
  · rename_i hbelow _
    cases found
    exact (holds_iff span e _).mp hbelow
  · rename_i _ habove
    cases found
    exact (holds_iff span e _).mp habove
  · cases found

/-- A grid whose steps are shorter than the interval is wide has a point in it. -/
theorem exists_gridPoint (low : span.low < span.middle) (high : span.middle < span.high)
    (narrow : span.low + (10 : ℚ) ^ e * one < span.high) : ∃ d, span.gridPoint? e = some d := by
  have hfactor := powerOfTen_pos (-e).toNat
  have hnarrow : span.low * powerOfTen (-e).toNat + powerOfTen e.toNat * one <
      span.high * powerOfTen (-e).toNat := by
    have hpos : (0 : ℚ) < powerOfTen (-e).toNat := by exact_mod_cast hfactor
    have hscaled := mul_lt_mul_of_pos_right narrow hpos
    rw [Decimal.zpow_eq_div, add_mul, mul_right_comm, div_mul_cancel₀ _ hpos.ne'] at hscaled
    exact_mod_cast hscaled
  have hstep : 0 < powerOfTen e.toNat * one := Nat.mul_pos (powerOfTen_pos _) one_pos
  have hlow := Nat.mul_lt_mul_of_pos_right low hfactor
  have hhigh := Nat.mul_lt_mul_of_pos_right high hfactor
  unfold gridPoint?
  dsimp only
  generalize powerOfTen (-e).toNat = factor at *
  generalize powerOfTen e.toNat * one = step at *
  have hbelow := Nat.div_mul_le_self (span.middle * factor) step
  have habove := Nat.lt_mul_div_succ (span.middle * factor) hstep
  rw [Nat.mul_comm step] at habove
  -- If neither point is in the interval, it fits between them.
  split
  · exact ⟨_, rfl⟩
  · exact ⟨_, rfl⟩
  · exact ⟨_, rfl⟩
  · rename_i hbelowOut haboveOut
    rw [Nat.add_mul, Nat.one_mul] at habove haboveOut
    unfold holds at hbelowOut haboveOut
    split at hbelowOut
    · rename_i hclosed
      simp only [hclosed, if_true, Bool.and_eq_false_iff, decide_eq_false_iff_not]
        at hbelowOut haboveOut
      omega
    · rename_i hopen
      simp only [hopen, if_false, Bool.and_eq_false_iff, decide_eq_false_iff_not,
        Bool.false_eq_true]
        at hbelowOut haboveOut
      omega

/-- The point position is not too far to the right. -/
theorem zpow_point_le (pos : 0 < span.middle) :
    (10 : ℚ) ^ (span.point - 1) * one ≤ span.middle := by
  have hten : (10 : ℚ) ≠ 0 := by norm_num
  unfold point
  split
  · rename_i hle
    have hquotient : 0 < span.middle / one := Nat.div_pos hle one_pos
    have hlength := Decimal.length_pos (span.middle / one)
    have hpow := Nat.mul_le_mul_right one (Decimal.pow_length_le hquotient)
    have hmiddle := Nat.div_mul_le_self span.middle one
    rw [show (Decimal.length (span.middle / one) : Int) - 1 =
      ((Decimal.length (span.middle / one) - 1 : Nat) : Int) by omega, zpow_natCast]
    exact_mod_cast hpow.trans hmiddle
  · have hlength := Decimal.length_pos (one / span.middle)
    have hpow : one / span.middle + 1 ≤ 10 ^ Decimal.length (one / span.middle) :=
      Decimal.lt_pow_length _
    have hle : one ≤ 10 ^ Decimal.length (one / span.middle) * span.middle := by
      have hone := Nat.lt_mul_div_succ one pos
      rw [Nat.mul_comm] at hone
      exact hone.le.trans (Nat.mul_le_mul_right _ hpow)
    generalize Decimal.length (one / span.middle) = places at *
    dsimp only
    split
    · rename_i hexact
      rw [show 2 - (places : Int) - 1 = -((places - 1 : Nat) : Int) by omega, zpow_neg,
        zpow_natCast, hexact, Decimal.powerOfTen_eq]
      push_cast
      field_simp
      exact le_rfl
    · rw [show 1 - (places : Int) - 1 = -(places : Int) by omega, zpow_neg, zpow_natCast,
        inv_mul_le_iff₀ (by positivity)]
      exact_mod_cast hle

end Span

/-- The interval of a magnitude is wide against what it surrounds. -/
theorem span_wide {m : Nat} (pos : 0 < m) : (span m).low < (span m).middle ∧
    (span m).middle < (span m).high ∧
    (span m).low * 10 ^ 16 + (span m).middle < (span m).high * 10 ^ 16 := by
  obtain ⟨s, c, parts, rfl⟩ := exists_parts m
  have hbit : hiddenBit = 4503599627370496 := rfl
  have hpositive : 1 ≤ c := by
    rcases parts.low with rfl | hle
    · omega
    · omega
  have hgap : 0 < 2 ^ s := Nat.two_pow_pos s
  have hlow : 1 * 2 ^ s ≤ c * 2 ^ s := Nat.mul_le_mul_right _ hpositive
  have hhigh : c * 2 ^ s < 9007199254740992 * 2 ^ s :=
    Nat.mul_lt_mul_of_pos_right (by have := parts.high; omega) hgap
  simp only [span, Nat.one_shiftLeft, parts.shift, parts.significand, parts.units]
  generalize 2 ^ s = gap at *
  -- Below a power of two the interval is narrower, but the significand is the least one then.
  split
  · rename_i hlowest
    rw [hlowest.1, hbit] at hlow hhigh ⊢
    omega
  · omega

/-- The decimal that is printed for a magnitude lies in its interval. -/
theorem contains_shortest {m : Nat} (pos : 0 < m) : (span m).Contains (span m).shortest.value := by
  obtain ⟨hlow, hhigh, hwide⟩ := span_wide pos
  have hmiddle : 0 < (span m).middle := by omega
  have hpoint := Span.zpow_point_le hmiddle
  have hlast : ∃ d, (span m).gridPoint? ((span m).point - 1 - (16 : Nat)) = some d := by
    refine Span.exists_gridPoint hlow hhigh ?_
    have hwide : ((span m).low * 10 ^ 16 + (span m).middle : ℚ) < (span m).high * 10 ^ 16 := by
      exact_mod_cast hwide
    have hstep : (10 : ℚ) ^ ((span m).point - 1 - (16 : Nat)) * 10 ^ 16 =
        10 ^ ((span m).point - 1) := by
      rw [zpow_sub₀ (by norm_num), zpow_natCast, div_mul_cancel₀ _ (by norm_num)]
    rw [← hstep] at hpoint
    generalize (10 : ℚ) ^ ((span m).point - 1 - (16 : Nat)) = step at hpoint ⊢
    linarith
  have hfound : ∃ d, (List.range 17).findSome? (fun (i : Nat) =>
      (span m).gridPoint? ((span m).point - 1 - (i : Int))) = some d := by
    rw [← Option.isSome_iff_exists, List.findSome?_isSome_iff]
    obtain ⟨d, hd⟩ := hlast
    exact ⟨16, List.mem_range.mpr (by decide), Option.isSome_iff_exists.mpr ⟨d, hd⟩⟩
  obtain ⟨d, hd⟩ := hfound
  obtain ⟨i, -, hi⟩ := List.exists_of_findSome?_eq_some hd
  rw [Span.shortest, hd, Option.getD_some, Decimal.value_trimmed]
  exact Span.contains_of_gridPoint hi

end Binary64

end Lox
