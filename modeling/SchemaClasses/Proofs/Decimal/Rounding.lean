import Mathlib.Tactic.Ring
import SchemaClasses.Decimal.Binary64

/-!
# Rounding

A number that is a double is rounded to itself, and rounding looks at a number alone, not at how it
is written. Numbers are compared as multiples of the smallest positive double, so all of this is
about natural numbers.
-/

namespace SchemaClasses.Decimal

/-! ## Powers -/

theorem pow2_pos (n : Nat) : 0 < pow2 n :=
  Nat.pow_pos (by decide)

theorem pow2_add (m n : Nat) : pow2 (m + n) = pow2 m * pow2 n :=
  Nat.pow_add ..

theorem pow2_le {m n : Nat} (h : m ≤ n) : pow2 m ≤ pow2 n :=
  Nat.pow_le_pow_right (by decide) h

theorem pow10_pos (n : Nat) : 0 < pow10 n :=
  Nat.pow_pos (by decide)

theorem pow10_add (m n : Nat) : pow10 (m + n) = pow10 m * pow10 n :=
  Nat.pow_add ..

theorem pow10_le {m n : Nat} (h : m ≤ n) : pow10 m ≤ pow10 n :=
  Nat.pow_le_pow_right (by decide) h

@[simp] theorem pow2_zero : pow2 0 = 1 := rfl

@[simp] theorem pow10_zero : pow10 0 = 1 := rfl

/-! ## Finite doubles -/

/-- A significand and a shift as a finite double has them: the shift is no greater than the
    significand needs. -/
structure IsDouble (significand shift : Nat) : Prop where
  lt : significand < pow2 53
  normal : pow2 52 ≤ significand ∨ shift = 0
  le : shift ≤ maxShift

variable {significand shift : Nat}

theorem isDouble_zero : IsDouble 0 0 :=
  ⟨by decide, .inr rfl, by decide⟩

/-- Zero is written in one way only. -/
theorem IsDouble.shift_eq_zero (h : IsDouble 0 shift) : shift = 0 :=
  h.normal.resolve_left (by decide)

/-- A significand that is too small for its shift takes over some of it. -/
theorem exists_isDouble (hlt : significand < pow2 53) (hle : shift ≤ maxShift) :
    ∃ s k, IsDouble s k ∧ s * pow2 k = significand * pow2 shift := by
  induction shift generalizing significand with
  | zero => exact ⟨significand, 0, ⟨hlt, .inr rfl, hle⟩, rfl⟩
  | succ shift ih =>
    by_cases hnormal : pow2 52 ≤ significand
    · exact ⟨significand, shift + 1, ⟨hlt, .inl hnormal, hle⟩, rfl⟩
    · have htwice : significand * pow2 1 < pow2 53 := by
        rw [show pow2 53 = pow2 52 * pow2 1 from rfl]
        exact Nat.mul_lt_mul_of_pos_right (Nat.not_le.mp hnormal) (pow2_pos 1)
      obtain ⟨s, k, h, heq⟩ := ih htwice (Nat.le_of_succ_le hle)
      exact ⟨s, k, h, by rw [heq, Nat.mul_assoc, ← pow2_add, Nat.add_comm]⟩

/-- The shift of a double can be read off its size. -/
theorem IsDouble.log2_eq (h : IsDouble significand shift) :
    (significand * pow2 shift).log2 + 1 - 53 = shift := by
  obtain ⟨hlt, hnormal, -⟩ := h
  by_cases hzero : significand = 0
  · obtain rfl : shift = 0 := hnormal.resolve_left (by rw [hzero]; decide)
    rw [hzero]
    rfl
  -- A significand of full length has fifty-three binary places, and a shorter one no shift.
  obtain hnormal | rfl := hnormal
  · have hpos : significand * pow2 shift ≠ 0 := Nat.mul_ne_zero hzero (pow2_pos shift).ne'
    have hlog : (significand * pow2 shift).log2 = 52 + shift := by
      refine (Nat.log2_eq_iff hpos).mpr ⟨?_, ?_⟩
      · rw [Nat.pow_add]
        exact Nat.mul_le_mul_right _ hnormal
      · rw [show 52 + shift + 1 = 53 + shift by omega, Nat.pow_add]
        exact Nat.mul_lt_mul_of_pos_right hlt (pow2_pos shift)
    omega
  · have hlog : significand.log2 < 53 := (Nat.log2_lt hzero).mpr hlt
    rw [pow2_zero, Nat.mul_one]
    omega

/-! ## Quotients -/

variable {numerator denominator scale : Nat}

/-- A quotient without remainder stays as it is. -/
theorem roundHalfEven_mul (n : Nat) (hpos : 0 < denominator) :
    roundHalfEven (n * denominator) denominator = n := by
  simp [roundHalfEven, Nat.mul_div_cancel n hpos, hpos.ne]

/-- A common factor does not matter to rounding. -/
theorem roundHalfEven_scale (hscale : 0 < scale) :
    roundHalfEven (scale * numerator) (scale * denominator) =
      roundHalfEven numerator denominator := by
  have hlt (a b : Nat) : (2 * (scale * a) > scale * b) = (2 * a > b) := by
    rw [Nat.mul_left_comm, gt_iff_lt, Nat.mul_lt_mul_left hscale]
  have heq (a b : Nat) : (2 * (scale * a) == scale * b) = (2 * a == b) := by
    rw [Nat.mul_left_comm, Bool.eq_iff_iff, beq_iff_eq, beq_iff_eq,
      Nat.mul_right_inj hscale.ne']
  simp only [roundHalfEven, Nat.mul_div_mul_left _ _ hscale, Nat.mul_mod_mul_left, hlt, heq]

namespace Binary64

variable {negative sign : Bool}

/-- A double is its own rounding. -/
theorem round_exact (h : IsDouble significand shift) (hpos : 0 < denominator) :
    round negative (significand * pow2 shift * denominator) denominator =
      .finite negative significand shift := by
  have hround : roundHalfEven (significand * pow2 shift * denominator)
      (denominator * pow2 shift) = significand := by
    rw [Nat.mul_assoc, Nat.mul_comm (pow2 shift)]
    exact roundHalfEven_mul _ (Nat.mul_pos hpos (pow2_pos shift))
  simp only [round, Nat.mul_div_cancel _ hpos, h.log2_eq, hround, if_neg h.lt.ne,
    if_neg (Nat.not_lt.mpr h.le)]

/-- What is rounded is the quotient, whatever its terms are. -/
theorem round_scale (hscale : 0 < scale) :
    round negative (scale * numerator) (scale * denominator) =
      round negative numerator denominator := by
  simp only [round, Nat.mul_div_mul_left _ _ hscale, Nat.mul_assoc scale,
    roundHalfEven_scale hscale]

/-- The shift is at least what the size of the number asks for. -/
theorem le_shift_of_round
    (h : round negative numerator denominator = .finite sign significand shift) :
    (numerator / denominator).log2 + 1 - 53 ≤ shift := by
  simp only [round] at h
  -- A significand that is rounded up to the next power of two raises the shift.
  split at h <;> split at h
  case isTrue.isFalse =>
    cases h
    exact Nat.le_succ _
  case isFalse.isFalse =>
    cases h
    exact Nat.le_refl _
  all_goals cases h

end Binary64

/-! ## Decimal numbers -/

theorem lt_pow_digitCount (n : Nat) : n < pow10 (digitCount n) :=
  (Nat.length_toDigits_le_iff (by decide) Nat.length_toDigits_pos).mp (Nat.le_refl _)

theorem digitCount_pos (n : Nat) : 0 < digitCount n :=
  Nat.length_toDigits_pos

/-- A number below a power of ten has no more digits than its exponent. -/
theorem digitCount_le_iff {n k : Nat} (hk : 0 < k) : digitCount n ≤ k ↔ n < pow10 k :=
  Nat.length_toDigits_le_iff (by decide) hk

theorem pow_digitCount_le {n : Nat} (h : n ≠ 0) : pow10 (digitCount n - 1) ≤ n := by
  by_contra hlt
  rw [Nat.not_le] at hlt
  obtain hone | hmore := Nat.eq_zero_or_pos (digitCount n - 1)
  · rw [hone, pow10_zero] at hlt
    omega
  · have hle : digitCount n ≤ digitCount n - 1 := (digitCount_le_iff hmore).mpr hlt
    omega

theorem digitCount_mul_ten {n : Nat} (h : n ≠ 0) : digitCount (10 * n) = digitCount n + 1 := by
  have hdigits := @Nat.toDigits_of_base_le 10 (10 * n) (by decide) (by omega)
  rw [Nat.mul_div_cancel_left n (by decide)] at hdigits
  rw [digitCount, hdigits, List.length_append]
  rfl

namespace Scientific

variable {d : Scientific}

/-- The number, its sign apart, is so many times the smallest positive double. -/
structure Equals (d : Scientific) (significand shift : Nat) : Prop where
  units : d.digits * pow10 d.exponent.toNat * pow2 1074 =
    significand * pow2 shift * pow10 (-d.exponent).toNat

/-- Equality with a double, as one of natural numbers. -/
theorem equals_iff : d.Equals significand shift ↔
    d.digits * pow10 d.exponent.toNat * pow2 1074 =
      significand * pow2 shift * pow10 (-d.exponent).toNat :=
  ⟨Equals.units, Equals.mk⟩

theorem equals_zero (h : d.digits = 0) : d.Equals 0 0 :=
  ⟨by rw [h, Nat.zero_mul, Nat.zero_mul, Nat.zero_mul, Nat.zero_mul]⟩

theorem Equals.significand_eq_zero_iff (heq : d.Equals significand shift) :
    significand = 0 ↔ d.digits = 0 := by
  have hunits := heq.units
  constructor <;> intro hzero <;>
    simpa [hzero, (pow2_pos _).ne', (pow10_pos _).ne'] using hunits

/-- A double is not so small that it is settled by its size. -/
theorem Equals.le_places (heq : d.Equals significand shift) (hdigits : d.digits ≠ 0) :
    -330 ≤ (digitCount d.digits : Int) + d.exponent := by
  have hsignificand : 0 < significand := Nat.pos_of_ne_zero (mt heq.significand_eq_zero_iff.mp hdigits)
  have hunit : pow2 1074 ≤ pow10 331 := by decide +kernel
  -- Otherwise the number would be smaller than the least double.
  by_contra hplaces
  obtain ⟨hup, hdown⟩ :
      d.exponent.toNat = 0 ∧ digitCount d.digits + 331 ≤ (-d.exponent).toNat := by omega
  have hunits := heq.units
  rw [hup, pow10_zero, Nat.mul_one] at hunits
  have hlt := calc
    pow10 (digitCount d.digits + 331) ≤ pow10 (-d.exponent).toNat := pow10_le hdown
    _ ≤ significand * pow2 shift * pow10 (-d.exponent).toNat :=
      Nat.le_mul_of_pos_left _ (Nat.mul_pos hsignificand (pow2_pos _))
    _ = d.digits * pow2 1074 := hunits.symm
    _ < pow10 (digitCount d.digits) * pow2 1074 :=
      Nat.mul_lt_mul_of_pos_right (lt_pow_digitCount _) (pow2_pos _)
    _ ≤ pow10 (digitCount d.digits) * pow10 331 := Nat.mul_le_mul_left _ hunit
    _ = pow10 (digitCount d.digits + 331) := (pow10_add ..).symm
  exact Nat.lt_irrefl _ hlt

/-- A double is not so great that it is settled by its size. -/
theorem Equals.places_le (h : IsDouble significand shift) (heq : d.Equals significand shift)
    (hdigits : d.digits ≠ 0) : (digitCount d.digits : Int) + d.exponent ≤ 310 := by
  have hbound : pow2 53 * pow2 maxShift ≤ pow10 309 * pow2 1074 := by decide +kernel
  -- Otherwise the number would be larger than every double.
  by_contra hplaces
  have hpow : pow10 (309 + (-d.exponent).toNat) ≤
      pow10 (digitCount d.digits - 1 + d.exponent.toNat) := pow10_le (by omega)
  have hlt := calc
    pow10 (digitCount d.digits - 1 + d.exponent.toNat) * pow2 1074
      = pow10 (digitCount d.digits - 1) * pow10 d.exponent.toNat * pow2 1074 := by rw [pow10_add]
    _ ≤ d.digits * pow10 d.exponent.toNat * pow2 1074 :=
      Nat.mul_le_mul_right _ (Nat.mul_le_mul_right _ (pow_digitCount_le hdigits))
    _ = significand * pow2 shift * pow10 (-d.exponent).toNat := heq.units
    _ < pow2 53 * pow2 maxShift * pow10 (-d.exponent).toNat :=
      Nat.mul_lt_mul_of_pos_right
        (Nat.mul_lt_mul_of_lt_of_le h.lt (pow2_le h.le) (pow2_pos _)) (pow10_pos _)
    _ ≤ pow10 309 * pow2 1074 * pow10 (-d.exponent).toNat := Nat.mul_le_mul_right _ hbound
    _ = pow10 (309 + (-d.exponent).toNat) * pow2 1074 := by rw [pow10_add, Nat.mul_right_comm]
  exact Nat.not_le.mpr hlt (Nat.mul_le_mul_right _ hpow)

/-- A decimal number that is a double is read as it. -/
theorem toBinary64_of_equals (h : IsDouble significand shift) (heq : d.Equals significand shift) :
    d.toBinary64 = .finite d.negative significand shift := by
  by_cases hdigits : d.digits = 0
  · obtain rfl := heq.significand_eq_zero_iff.mpr hdigits
    obtain rfl := h.shift_eq_zero
    simp [toBinary64, hdigits]
  -- The value of a double is neither so small nor so large that it is not rounded at all.
  have hlow := Int.not_lt.mpr (heq.le_places hdigits)
  have hhigh := Int.not_lt.mpr (heq.places_le h hdigits)
  have hunits := heq.units
  simp only [toBinary64, hdigits, decide_false, Bool.false_or, decide_eq_true_eq, if_neg hlow,
    if_neg hhigh]
  split
  next hexponent =>
    rw [show (-d.exponent).toNat = 0 by omega, pow10_zero] at hunits
    rw [hunits]
    exact Binary64.round_exact h Nat.one_pos
  next hexponent =>
    rw [show d.exponent.toNat = 0 by omega, pow10_zero, Nat.mul_one] at hunits
    rw [hunits]
    exact Binary64.round_exact h (pow10_pos _)

/-- A zero at the end of the digits makes no difference. -/
theorem toBinary64_mul_ten (negative : Bool) (digits : Nat) (exponent : Int) :
    toBinary64 ⟨negative, 10 * digits, exponent⟩ = toBinary64 ⟨negative, digits, exponent + 1⟩ := by
  by_cases hdigits : digits = 0
  · simp [toBinary64, hdigits]
  have hplaces : (digitCount (10 * digits) : Int) + exponent =
      (digitCount digits : Int) + (exponent + 1) := by
    rw [digitCount_mul_ten hdigits]
    omega
  simp only [toBinary64, hplaces, Nat.mul_eq_zero, hdigits, OfNat.ofNat_ne_zero, or_self]
  split
  · rfl
  split
  · rfl
  -- Where the power of ten is below the line, ten is cancelled.
  by_cases hnonneg : 0 ≤ exponent
  · rw [if_pos hnonneg, if_pos (by omega), show (exponent + 1).toNat = exponent.toNat + 1 by omega,
      pow10_add, Nat.mul_comm (pow10 exponent.toNat), ← Nat.mul_assoc, Nat.mul_comm 10]
    rfl
  · have hdown : pow10 (-exponent).toNat = 10 * pow10 (-(exponent + 1)).toNat := by
      rw [show (-exponent).toNat = 1 + (-(exponent + 1)).toNat by omega, pow10_add]
      rfl
    rw [if_neg hnonneg, hdown, Nat.mul_assoc, Binary64.round_scale (by decide)]
    split
    next hzero =>
      rw [show exponent = -1 by omega]
      simp only [Int.reduceNeg, Int.reduceAdd, Int.toNat_zero, Int.neg_zero, pow10_zero,
        Nat.mul_one]
    next => rfl

end Scientific

end SchemaClasses.Decimal
