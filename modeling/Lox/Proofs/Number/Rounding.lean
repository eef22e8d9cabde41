import Lox.Number.Binary64
import Mathlib.Algebra.Order.Field.Rat
import Mathlib.Order.Monotone.Basic
import Mathlib.Tactic.FieldSimp
import Mathlib.Tactic.Linarith
import Mathlib.Tactic.NormNum
import Mathlib.Tactic.Positivity
import Mathlib.Tactic.Ring

/-!
# Rounding to binary64

What it means that a rational rounds to a magnitude is said here without any computation: no other
magnitude is nearer, and where another one is as near, the magnitude has an even significand. The
magnitude of infinity counts as the power of two that would come after the finite doubles, so that
what lies past the finite range rounds to it from half way on.

The magnitudes are the values `units` takes, one after the other, and each is one step above the one
before it. A rational between two neighbours is therefore decided by their midpoint, and both the
quotient that `nearest` computes and the interval that `span` spells out are read off the midpoints.

## Main definitions

* `value` — the exact value of a magnitude.
* `RoundsTo` — rounding to the nearest magnitude, ties to the even significand.
* `Span.Contains` — the rationals of an interval.

## Main results

* `units_succ`, `strictMono_units` — magnitudes in order.
* `RoundsTo.unique` — a rational rounds to one magnitude only.
* `nearest_roundsTo` — the nearest magnitude of a fraction.
* `Span.Contains.roundsTo` — the rationals in the interval of a magnitude.
-/

namespace Lox.Binary64

variable {m n s c : Nat} {x : ℚ}

/-! ### Magnitudes in order -/

theorem hiddenBit_pos : 0 < hiddenBit := by decide

theorem hiddenBit_even : 2 ∣ hiddenBit := by decide

theorem one_pos : 0 < one := by decide +kernel

/-- The shift and the significand that a magnitude is made of. -/
structure Parts (s c : Nat) : Prop where
  /-- Outside the subnormal range the significand has its hidden bit. -/
  low : s = 0 ∨ hiddenBit ≤ c
  high : c < 2 * hiddenBit

theorem Parts.shift (parts : Parts s c) : shift (s * hiddenBit + c) = s := by
  have hdiv : (s * hiddenBit + c) / hiddenBit = s + c / hiddenBit := by
    rw [Nat.mul_comm, Nat.mul_add_div hiddenBit_pos]
  have hlt : c / hiddenBit < 2 := (Nat.div_lt_iff_lt_mul hiddenBit_pos).mpr parts.high
  rw [Binary64.shift, hdiv]
  rcases parts.low with rfl | hle
  · omega
  · have : 1 ≤ c / hiddenBit := (Nat.le_div_iff_mul_le hiddenBit_pos).mpr (by omega)
    omega

theorem Parts.significand (parts : Parts s c) : significand (s * hiddenBit + c) = c := by
  rw [Binary64.significand, parts.shift]
  omega

theorem Parts.units (parts : Parts s c) : units (s * hiddenBit + c) = c * 2 ^ s := by
  rw [Binary64.units, parts.shift, parts.significand, Nat.shiftLeft_eq]

/-- Every magnitude is made of its shift and its significand. -/
theorem exists_parts (m : Nat) : ∃ s c, Parts s c ∧ m = s * hiddenBit + c := by
  have hmod : m % hiddenBit < hiddenBit := Nat.mod_lt _ hiddenBit_pos
  have hm : m = m / hiddenBit * hiddenBit + m % hiddenBit := (Nat.div_add_mod' ..).symm
  cases hquotient : m / hiddenBit with
  | zero =>
      rw [hquotient] at hm
      exact ⟨0, m % hiddenBit, ⟨.inl rfl, by omega⟩, hm⟩
  | succ s =>
      rw [hquotient, Nat.add_mul] at hm
      exact ⟨s, hiddenBit + m % hiddenBit, ⟨.inr (by omega), by omega⟩, by omega⟩

/-- The next magnitude is one step of its binade above. -/
theorem units_succ (m : Nat) : units (m + 1) = units m + 2 ^ shift m := by
  obtain ⟨s, c, parts, rfl⟩ := exists_parts m
  rw [parts.units, parts.shift]
  by_cases hlast : c + 1 = 2 * hiddenBit
  · have hnext : Parts (s + 1) hiddenBit := ⟨.inr (Nat.le_refl _), by omega⟩
    have heq : s * hiddenBit + c + 1 = (s + 1) * hiddenBit + hiddenBit := by
      rw [Nat.add_mul]
      omega
    rw [heq, hnext.units, Nat.pow_succ, Nat.mul_comm (2 ^ s), ← Nat.mul_assoc,
      Nat.mul_comm hiddenBit, ← hlast, Nat.add_mul, Nat.one_mul]
  · have hnext : Parts s (c + 1) := ⟨parts.low.imp_right (by omega), by have := parts.high; omega⟩
    rw [Nat.add_assoc, hnext.units, Nat.add_mul, Nat.one_mul]

theorem strictMono_units : StrictMono units :=
  strictMono_nat_of_lt_succ fun m => by
    rw [units_succ]
    exact Nat.lt_add_of_pos_right (Nat.two_pow_pos _)

theorem units_zero : units 0 = 0 := by decide

/-- The significand is even when the magnitude is. -/
theorem significand_mod_two (m : Nat) : significand m % 2 = m % 2 := by
  obtain ⟨s, c, parts, rfl⟩ := exists_parts m
  rw [parts.significand]
  have : 2 ∣ s * hiddenBit := hiddenBit_even.mul_left s
  omega

/-! ### Rounding -/

/-- The exact value of a magnitude. -/
def value (magnitude : Nat) : ℚ := units magnitude / one

theorem value_eq_natCast_iff : value m = n ↔ units m = n * one := by
  have hone : (one : ℚ) ≠ 0 := by exact_mod_cast one_pos.ne'
  rw [value, div_eq_iff hone]
  exact_mod_cast Iff.rfl

/-- A rational rounds to a magnitude: no other one is nearer, and of two that are as near it is the
one with the even significand. -/
structure RoundsTo (x : ℚ) (magnitude : Nat) : Prop where
  le_infinity : magnitude ≤ infinity
  nearest : ∀ other ≤ infinity, |x - value magnitude| ≤ |x - value other|
  even : ∀ other ≤ infinity, other ≠ magnitude → |x - value magnitude| = |x - value other| →
    significand magnitude % 2 = 0

theorem strictMono_value : StrictMono value := by
  intro m n hlt
  have hunits : (units m : ℚ) < units n := by exact_mod_cast strictMono_units hlt
  have hone : (0 : ℚ) < one := by exact_mod_cast one_pos
  exact div_lt_div_of_pos_right hunits hone

theorem value_le (le : m ≤ n) : value m ≤ value n := strictMono_value.monotone le

theorem value_zero : value 0 = 0 := by
  rw [value, units_zero, Nat.cast_zero, zero_div]

/-- Two magnitudes that are as near to a rational lie on either side of it. -/
theorem add_eq_of_abs_eq (lt : m < n) (same : |x - value m| = |x - value n|) :
    value m + value n = 2 * x := by
  have hlt := strictMono_value lt
  rcases abs_eq_abs.mp same with h | h <;> linarith

/-- A rational rounds to a magnitude if it lies between the midpoints on either side of it. The
midpoint itself belongs to the even magnitude. -/
theorem RoundsTo.of_midpoints (le : m ≤ infinity)
    (below : ∀ k, k + 1 = m → value k + value m ≤ 2 * x ∧
      (value k + value m = 2 * x → m % 2 = 0))
    (above : m < infinity → 2 * x ≤ value m + value (m + 1) ∧
      (value m + value (m + 1) = 2 * x → m % 2 = 0)) : RoundsTo x m := by
  refine ⟨le, fun n hn => ?_, fun n hn hne hsame => ?_⟩
  · rcases Nat.lt_trichotomy n m with hlt | rfl | hlt
    · obtain ⟨k, rfl⟩ := Nat.exists_eq_succ_of_ne_zero (Nat.ne_zero_of_lt hlt)
      have hmid := (below k rfl).1
      have hk := value_le (Nat.le_of_lt_succ hlt)
      have hm := strictMono_value (Nat.lt_succ_self k)
      exact abs_le_abs (by linarith) (by linarith)
    · exact le_rfl
    · have hmid := (above (by omega)).1
      have hsucc := value_le (Nat.succ_le_of_lt hlt)
      have hm := strictMono_value (Nat.lt_succ_self m)
      rw [abs_sub_comm x, abs_sub_comm x]
      exact abs_le_abs (by linarith) (by linarith)
  · rw [significand_mod_two]
    rcases Nat.lt_or_gt_of_ne hne with hlt | hlt
    · obtain ⟨k, rfl⟩ := Nat.exists_eq_succ_of_ne_zero (Nat.ne_zero_of_lt hlt)
      have hsum := add_eq_of_abs_eq hlt hsame.symm
      have hk := value_le (Nat.le_of_lt_succ hlt)
      obtain ⟨hmid, heven⟩ := below k rfl
      exact heven (by linarith)
    · have hsum := add_eq_of_abs_eq hlt hsame
      have hsucc := value_le (Nat.succ_le_of_lt hlt)
      obtain ⟨hmid, heven⟩ := above (by omega)
      exact heven (by linarith)

/-- A magnitude rounds to itself. -/
theorem RoundsTo.self (le : m ≤ infinity) : RoundsTo (value m) m := by
  refine ⟨le, fun n _ => ?_, fun n _ hne hsame => ?_⟩
  · rw [sub_self, abs_zero]
    exact abs_nonneg _
  · rw [sub_self, abs_zero] at hsame
    exact absurd (strictMono_value.injective (sub_eq_zero.mp (abs_eq_zero.mp hsame.symm))) hne.symm

/-- A rational rounds to one magnitude only. -/
theorem RoundsTo.unique (hm : RoundsTo x m) (hn : RoundsTo x n) : m = n := by
  -- Two even magnitudes have another one between them, and it would be nearer.
  have hlt : ∀ {m n}, RoundsTo x m → RoundsTo x n → ¬ m < n := by
    intro m n hm hn hlt
    have hsame := le_antisymm (hm.nearest n hn.le_infinity) (hn.nearest m hm.le_infinity)
    have hmEven := hm.even n hn.le_infinity (by omega) hsame
    have hnEven := hn.even m hm.le_infinity (by omega) hsame.symm
    rw [significand_mod_two] at hmEven hnEven
    have hsum := add_eq_of_abs_eq hlt hsame
    have hlow := strictMono_value (Nat.lt_succ_self m)
    have hhigh := strictMono_value (show m + 1 < n by omega)
    have hnear := hm.nearest (m + 1) (by have := hn.le_infinity; omega)
    rw [abs_of_pos (show 0 < x - value m by linarith)] at hnear
    exact absurd (abs_lt.mpr ⟨by linarith, by linarith⟩) (not_lt.mpr hnear)
  exact Nat.le_antisymm (not_lt.mp (hlt hn hm)) (not_lt.mp (hlt hm hn))

/-- Rationals up to half the least positive double round to zero. -/
theorem RoundsTo.zero (le : 2 * x ≤ value 1) : RoundsTo x 0 :=
  .of_midpoints (Nat.zero_le _) (fun k h => absurd h (Nat.succ_ne_zero k)) fun _ =>
    ⟨by rw [value_zero]; linarith, fun _ => rfl⟩

/-- Rationals past the finite range round to infinity. -/
theorem RoundsTo.infinity (le : value infinity ≤ x) : RoundsTo x infinity := by
  refine .of_midpoints le_rfl (fun k hk => ?_) fun h => absurd h (lt_irrefl _)
  have hlt := strictMono_value (show k < Binary64.infinity by omega)
  exact ⟨by linarith, fun heq => by linarith⟩

/-! ### The nearest magnitude of a fraction -/

section Nearest

variable {numerator denominator : Nat}

/-- Midpoints and fractions compared as whole numbers. -/
theorem add_le_two_mul_iff (pos : 0 < denominator) :
    value m + value n ≤ 2 * (numerator / denominator : ℚ) ↔
      (units m + units n) * denominator ≤ 2 * (numerator * one) := by
  have hone : (0 : ℚ) < one := by exact_mod_cast one_pos
  have hpos : (0 : ℚ) < denominator := by exact_mod_cast pos
  rw [value, value, ← add_div, ← mul_div_assoc, div_le_div_iff₀ hone hpos, mul_assoc]
  exact_mod_cast Iff.rfl

theorem two_mul_le_add_iff (pos : 0 < denominator) :
    2 * (numerator / denominator : ℚ) ≤ value m + value n ↔
      2 * (numerator * one) ≤ (units m + units n) * denominator := by
  have hone : (0 : ℚ) < one := by exact_mod_cast one_pos
  have hpos : (0 : ℚ) < denominator := by exact_mod_cast pos
  rw [value, value, ← add_div, ← mul_div_assoc, div_le_div_iff₀ hpos hone, mul_assoc]
  exact_mod_cast Iff.rfl

theorem add_eq_two_mul_iff (pos : 0 < denominator) :
    value m + value n = 2 * (numerator / denominator : ℚ) ↔
      (units m + units n) * denominator = 2 * (numerator * one) := by
  rw [le_antisymm_iff, add_le_two_mul_iff pos, two_mul_le_add_iff pos, ← Nat.le_antisymm_iff]

/-- A fraction in the lower half of a step rounds down. -/
theorem roundsTo_lower (pos : 0 < denominator) (le_infinity : m ≤ infinity)
    (low : units m * denominator ≤ numerator * one)
    (half : 2 * (numerator * one) ≤ (units m + units (m + 1)) * denominator)
    (tie : (units m + units (m + 1)) * denominator = 2 * (numerator * one) → m % 2 = 0) :
    RoundsTo (numerator / denominator) m := by
  refine .of_midpoints le_infinity (fun k hk => ?_) fun _ =>
    ⟨(two_mul_le_add_iff pos).mpr half, fun h => tie ((add_eq_two_mul_iff pos).mp h)⟩
  have hlt : units k * denominator < units m * denominator :=
    Nat.mul_lt_mul_of_pos_right (strictMono_units (by omega)) pos
  rw [add_le_two_mul_iff pos, add_eq_two_mul_iff pos, Nat.add_mul]
  omega

/-- A fraction in the upper half of a step rounds up. -/
theorem roundsTo_upper (pos : 0 < denominator) (lt_infinity : m < infinity)
    (high : numerator * one < units (m + 1) * denominator)
    (half : (units m + units (m + 1)) * denominator ≤ 2 * (numerator * one))
    (tie : (units m + units (m + 1)) * denominator = 2 * (numerator * one) → m % 2 = 1) :
    RoundsTo (numerator / denominator) (m + 1) := by
  refine .of_midpoints lt_infinity (fun k hk => ?_) fun _ => ?_
  · obtain rfl : k = m := by omega
    rw [add_le_two_mul_iff pos, add_eq_two_mul_iff pos]
    exact ⟨half, fun h => by have := tie h; omega⟩
  · have hlt : units (m + 1) * denominator < units (m + 1 + 1) * denominator :=
      Nat.mul_lt_mul_of_pos_right (strictMono_units (by omega)) pos
    rw [two_mul_le_add_iff pos, add_eq_two_mul_iff pos, Nat.add_mul]
    omega

/-- The quotient that is rounded, with the parts of the magnitude below. -/
theorem parts_quotient (scaled denominator : Nat) :
    let shift := Nat.log2 (scaled / denominator) - 52
    Parts shift (scaled / (denominator <<< shift)) := by
  intro shift
  have hquotient : scaled / (denominator <<< shift) = scaled / denominator / 2 ^ shift := by
    rw [Nat.shiftLeft_eq, Nat.div_div_eq_div_mul]
  rw [hquotient]
  have hbit : hiddenBit = 2 ^ 52 := rfl
  have hhigh : scaled / denominator < 2 ^ (Nat.log2 (scaled / denominator) + 1) := Nat.lt_log2_self
  constructor
  · by_cases hshift : shift = 0
    · exact .inl hshift
    · refine .inr ((Nat.le_div_iff_mul_le (Nat.two_pow_pos _)).mpr ?_)
      have hne : scaled / denominator ≠ 0 := by
        intro h
        exact hshift (by simp only [shift, h, Nat.log2_zero, Nat.zero_sub])
      rw [hbit, ← Nat.pow_add, show 52 + shift = Nat.log2 (scaled / denominator) by omega]
      exact Nat.log2_self_le hne
  · refine (Nat.div_lt_iff_lt_mul (Nat.two_pow_pos _)).mpr (Nat.lt_of_lt_of_le hhigh ?_)
    rw [hbit, ← Nat.pow_succ', ← Nat.pow_add]
    exact Nat.pow_le_pow_right (by decide) (by omega)

/-- A quotient is rounded down or up, by half of its denominator, and to the even one of both if the
rest is exactly that half. -/
theorem roundQuotient_cases (numerator denominator : Nat) :
    (roundQuotient numerator denominator = numerator / denominator ∧
      2 * (numerator % denominator) ≤ denominator ∧
      (2 * (numerator % denominator) = denominator → numerator / denominator % 2 = 0)) ∨
    (roundQuotient numerator denominator = numerator / denominator + 1 ∧
      denominator ≤ 2 * (numerator % denominator) ∧
      (2 * (numerator % denominator) = denominator → numerator / denominator % 2 = 1)) := by
  unfold roundQuotient
  dsimp only
  generalize numerator / denominator = quotient
  generalize numerator % denominator = rest
  split
  · exact .inl ⟨rfl, by omega, by omega⟩
  · split
    · exact .inr ⟨rfl, by omega, by omega⟩
    · rcases Nat.mod_two_eq_zero_or_one quotient with heven | hodd
      · exact .inl ⟨by omega, by omega, fun _ => heven⟩
      · exact .inr ⟨by omega, by omega, fun _ => hodd⟩

/-- The nearest magnitude of a fraction is the one that it rounds to. -/
theorem nearest_roundsTo (numerator : Nat) (pos : 0 < denominator) :
    RoundsTo (numerator / denominator) (nearest numerator denominator) := by
  have hparts := parts_quotient (numerator * one) denominator
  unfold nearest
  dsimp only at hparts ⊢
  generalize Nat.log2 (numerator * one / denominator) - 52 = shift at hparts ⊢
  rw [Nat.shiftLeft_eq] at hparts ⊢
  have hrounded := roundQuotient_cases (numerator * one) (denominator * 2 ^ shift)
  have hstep : 0 < denominator * 2 ^ shift := Nat.mul_pos pos (Nat.two_pow_pos _)
  have hdivision := Nat.div_add_mod (numerator * one) (denominator * 2 ^ shift)
  have hrest := Nat.mod_lt (numerator * one) hstep
  generalize numerator * one / (denominator * 2 ^ shift) = quotient at hparts hdivision hrounded
  generalize numerator * one % (denominator * 2 ^ shift) = rest at hdivision hrest hrounded
  -- The two magnitudes on either side of the fraction, with one step between them.
  have hlow : units (shift * hiddenBit + quotient) * denominator =
      denominator * 2 ^ shift * quotient := by
    rw [hparts.units]
    ring
  have hhigh : units (shift * hiddenBit + quotient + 1) * denominator =
      denominator * 2 ^ shift * quotient + denominator * 2 ^ shift := by
    rw [units_succ, hparts.shift, Nat.add_mul, hlow]
    ring
  have hparity : (shift * hiddenBit + quotient) % 2 = quotient % 2 := by
    have : 2 ∣ shift * hiddenBit := hiddenBit_even.mul_left shift
    omega
  by_cases hfinite : shift * hiddenBit + quotient < infinity
  · rcases hrounded with ⟨hdown, hhalf, htie⟩ | ⟨hup, hhalf, htie⟩
    · rw [hdown, Nat.min_eq_right hfinite.le]
      refine roundsTo_lower pos hfinite.le (by omega) ?_ ?_
      · rw [Nat.add_mul]
        omega
      · rw [Nat.add_mul, hparity]
        omega
    · rw [hup, ← Nat.add_assoc, Nat.min_eq_right hfinite]
      refine roundsTo_upper pos hfinite (by omega) ?_ ?_
      · rw [Nat.add_mul]
        omega
      · rw [Nat.add_mul, hparity]
        omega
  · have hpast : units infinity * denominator ≤
        units (shift * hiddenBit + quotient) * denominator :=
      Nat.mul_le_mul_right _ (strictMono_units.monotone (by omega))
    have hmid : value infinity + value infinity ≤ 2 * (numerator / denominator : ℚ) := by
      rw [add_le_two_mul_iff pos, Nat.add_mul]
      omega
    rw [Nat.min_eq_left (by omega)]
    exact .infinity (by linarith)

end Nearest

/-! ### The interval of a magnitude -/

/-- A rational in the interval. -/
def Span.Contains (span : Span) (x : ℚ) : Prop :=
  if span.closed then (span.low : ℚ) ≤ x * Span.one ∧ x * Span.one ≤ span.high
  else (span.low : ℚ) < x * Span.one ∧ x * Span.one < span.high

/-- The interval ends at the midpoint above. -/
theorem span_high (m : Nat) : (span m).high = 2 * (units m + units (m + 1)) := by
  rw [units_succ]
  simp only [span, Nat.one_shiftLeft]
  omega

/-- The interval starts at the midpoint below. -/
theorem span_low_succ (m : Nat) : (span (m + 1)).low = 2 * (units m + units (m + 1)) := by
  obtain ⟨s, c, parts, rfl⟩ := exists_parts m
  have hsucc := units_succ (s * hiddenBit + c)
  rw [parts.shift] at hsucc
  simp only [span, Nat.one_shiftLeft]
  -- A magnitude without a fraction starts a binade, in which steps are twice as long.
  by_cases hlast : c + 1 = 2 * hiddenBit
  · have hnext : Parts (s + 1) hiddenBit := ⟨.inr (Nat.le_refl _), by omega⟩
    have heq : s * hiddenBit + c + 1 = (s + 1) * hiddenBit + hiddenBit := by
      rw [Nat.add_mul]
      omega
    rw [heq] at hsucc ⊢
    rw [hnext.shift, hnext.significand, if_pos ⟨rfl, Nat.succ_pos s⟩, Nat.pow_succ]
    omega
  · have hnext : Parts s (c + 1) := ⟨parts.low.imp_right (by omega), by have := parts.high; omega⟩
    have hinside : ¬ (c + 1 = hiddenBit ∧ 0 < s) := by
      have := parts.low
      omega
    rw [Nat.add_assoc] at hsucc ⊢
    rw [hnext.shift, hnext.significand, if_neg hinside]
    omega

theorem span_closed (m : Nat) : (span m).closed = true ↔ m % 2 = 0 := by
  rw [← significand_mod_two]
  exact decide_eq_true_iff

/-- Midpoints in quarters of a unit. -/
theorem two_mul_units_add (m n : Nat) :
    ((2 * (units m + units n) : Nat) : ℚ) = (value m + value n) * (2 * one) := by
  have hone : (one : ℚ) ≠ 0 := by exact_mod_cast one_pos.ne'
  rw [value, value]
  push_cast
  field_simp

/-- The rationals in the interval of a magnitude round to it. -/
theorem Span.Contains.roundsTo (contains : (span m).Contains x) (finite : m < infinity) :
    RoundsTo x m := by
  have hpos : (0 : ℚ) < 2 * Binary64.one := by exact_mod_cast Nat.mul_pos two_pos one_pos
  have hscale : x * Span.one = 2 * x * (2 * Binary64.one) := by
    rw [Span.one]
    push_cast
    ring
  simp only [Span.Contains, span_closed, hscale, span_high, two_mul_units_add,
    mul_lt_mul_iff_left₀ hpos, mul_le_mul_iff_left₀ hpos] at contains
  refine .of_midpoints finite.le (fun k hk => ?_) fun _ => ?_
  · subst hk
    simp only [span_low_succ, two_mul_units_add, mul_lt_mul_iff_left₀ hpos,
      mul_le_mul_iff_left₀ hpos] at contains
    split at contains
    · rename_i heven
      exact ⟨contains.1, fun _ => heven⟩
    · exact ⟨contains.1.le, fun h => absurd h contains.1.ne⟩
  · split at contains
    · rename_i heven
      exact ⟨contains.2, fun _ => heven⟩
    · exact ⟨contains.2.le, fun h => absurd h.symm contains.2.ne⟩

end Lox.Binary64
