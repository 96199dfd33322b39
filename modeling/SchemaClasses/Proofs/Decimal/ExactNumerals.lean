import Mathlib.Algebra.Order.Field.Rat
import Mathlib.Data.List.Induction
import Mathlib.Tactic.Ring
import SchemaClasses.Proofs.Decimal.Shortest
import SchemaClasses.Proofs.Literals.Numerals

/-!
# Exact numerals

What number a numeral denotes, and that the shortest numeral of a double denotes the double itself.
So a number that is a double keeps its value when it is read as a double and written again, however
many digits it was written with.
-/

namespace SchemaClasses.Decimal

/-! ## Numbers -/

def signed (negative : Bool) (q : ℚ) : ℚ :=
  if negative then -q else q

/-- The decimal number, without rounding. -/
def Scientific.toRat (d : Scientific) : ℚ :=
  signed d.negative (d.digits * 10 ^ d.exponent)

/-- The number that a double is, if it is finite. -/
def Binary64.toRat? : Binary64 → Option ℚ
  | .finite negative significand shift =>
    some (signed negative ((significand * pow2 shift : Nat) / (pow2 1074 : Nat)))
  | _ => none

def Numeral.toScientific : Numeral → Scientific
  | .int n => ⟨n.negative, n.magnitude, 0⟩
  | .float n => n.toScientific

/-- The number that a numeral denotes: an integer itself, any other number as a double. -/
def Numeral.toRat? : Numeral → Option ℚ
  | .int n => some n.toInt
  | .float n => n.toBinary64.toRat?

/-- The number that is written is that of a double. -/
def Numeral.IsExact (n : Numeral) : Prop :=
  ∃ significand shift, significand < pow2 53 ∧ shift ≤ maxShift ∧
    (Binary64.finite n.toScientific.negative significand shift).toRat? =
      some n.toScientific.toRat

variable {negative : Bool} {significand shift : Nat}

theorem signed_inj {p q : ℚ} : signed negative p = signed negative q ↔ p = q := by
  cases negative with
  | true => exact neg_inj
  | false => rfl

/-- A power of ten as a quotient of two whole ones, one of which is one. -/
theorem zpow_ten_eq (exponent : Int) :
    (10 : ℚ) ^ exponent = (pow10 exponent.toNat : Nat) / (pow10 (-exponent).toNat : Nat) := by
  have hcast (n : Nat) : ((pow10 n : Nat) : ℚ) = 10 ^ n := Nat.cast_pow 10 n
  obtain ⟨n, rfl | rfl⟩ := Int.eq_nat_or_neg exponent
  · rw [Int.toNat_natCast, Int.toNat_of_nonpos (Int.neg_nonpos_of_nonneg (Int.natCast_nonneg n)),
      hcast, hcast, pow_zero, div_one, zpow_natCast]
  · rw [Int.neg_neg, Int.toNat_natCast,
      Int.toNat_of_nonpos (Int.neg_nonpos_of_nonneg (Int.natCast_nonneg n)), hcast, hcast, pow_zero,
      one_div, zpow_neg, zpow_natCast]

/-- A decimal number is so many times the smallest positive double exactly if the numbers are
    equal. -/
theorem Scientific.equals_iff_toRat {d : Scientific} :
    d.Equals significand shift ↔
      (Binary64.finite d.negative significand shift).toRat? = some d.toRat := by
  have hten : ((pow10 (-d.exponent).toNat : Nat) : ℚ) ≠ 0 := Nat.cast_ne_zero.mpr (pow10_pos _).ne'
  have htwo : ((pow2 1074 : Nat) : ℚ) ≠ 0 := Nat.cast_ne_zero.mpr (pow2_pos _).ne'
  rw [Binary64.toRat?, Option.some.injEq, Scientific.toRat, signed_inj, zpow_ten_eq, ← mul_div_assoc,
    div_eq_div_iff htwo hten, equals_iff, eq_comm]
  exact_mod_cast Iff.rfl

/-! ## Digits -/

theorem ofChar?_digitChar (d : Digit) : Digit.ofChar? (Nat.digitChar d.val) = some d := by
  revert d
  decide

theorem digitsOf_of_lt {n : Nat} (h : n < 10) : digitsOf n = [⟨n, h⟩] := by
  rw [digitsOf, Nat.toDigits_of_lt_base h, List.filterMap_cons, ofChar?_digitChar ⟨n, h⟩]
  rfl

theorem digitsOf_of_le {n : Nat} (h : 10 ≤ n) :
    digitsOf n = digitsOf (n / 10) ++ [⟨n % 10, Nat.mod_lt n (by decide)⟩] := by
  rw [digitsOf, Nat.toDigits_of_base_le (by decide) h, List.filterMap_append, List.filterMap_cons,
    ofChar?_digitChar ⟨n % 10, Nat.mod_lt n (by decide)⟩]
  rfl

/-- A number has as many digits as are counted. -/
theorem length_digitsOf (n : Nat) : (digitsOf n).length = digitCount n := by
  induction n using Nat.strongRecOn with
  | _ n ih =>
    by_cases hsmall : n < 10
    · rw [digitsOf_of_lt hsmall, digitCount, Nat.toDigits_of_lt_base hsmall]
      rfl
    · have hlarge : 10 ≤ n := Nat.not_lt.mp hsmall
      rw [digitsOf_of_le hlarge, digitCount, Nat.toDigits_of_base_le (by decide) hlarge,
        List.length_append, List.length_append, ih (n / 10) (by omega)]
      rfl

theorem digitsOf_ne_nil (n : Nat) : digitsOf n ≠ [] := by
  rw [← List.length_pos_iff, length_digitsOf]
  exact digitCount_pos n

theorem digitsValue_append_singleton (digits : List Digit) (d : Digit) :
    digitsValue (digits ++ [d]) = 10 * digitsValue digits + d.val := by
  rw [digitsValue, List.foldl_append]
  rfl

/-- Digits before others stand for greater powers of ten. -/
theorem digitsValue_append (digits more : List Digit) :
    digitsValue (digits ++ more) = digitsValue digits * pow10 more.length + digitsValue more := by
  induction more using List.reverseRecOn with
  | nil => simp [digitsValue]
  | append_singleton more d ih =>
    rw [← List.append_assoc, digitsValue_append_singleton, ih, digitsValue_append_singleton,
      List.length_append, pow10_add]
    change _ = _ * (_ * 10) + _
    ring

theorem digitsValue_replicate_zero (count : Nat) : digitsValue (List.replicate count 0) = 0 := by
  induction count with
  | zero => rfl
  | succ count ih =>
    rw [List.replicate_succ', digitsValue_append_singleton, ih]
    rfl

/-- Zeros in front of the digits make no difference. -/
theorem digitsValue_replicate_append (count : Nat) (digits : List Digit) :
    digitsValue (List.replicate count 0 ++ digits) = digitsValue digits := by
  rw [digitsValue_append, digitsValue_replicate_zero, Nat.zero_mul, Nat.zero_add]

/-- A number is read back from its digits. -/
theorem digitsValue_digitsOf (n : Nat) : digitsValue (digitsOf n) = n := by
  induction n using Nat.strongRecOn with
  | _ n ih =>
    by_cases hsmall : n < 10
    · rw [digitsOf_of_lt hsmall]
      exact Nat.zero_add n
    · rw [digitsOf_of_le (Nat.not_lt.mp hsmall), digitsValue_append_singleton,
        ih (n / 10) (by omega)]
      exact Nat.div_add_mod n 10

/-- A point within the digits splits their number. -/
theorem digitsValue_take_drop (n place : Nat) :
    digitsValue ((digitsOf n).take place) * pow10 ((digitsOf n).drop place).length
      + digitsValue ((digitsOf n).drop place) = n := by
  rw [← digitsValue_append, List.take_append_drop, digitsValue_digitsOf]

/-- An exponent is read back from how it is written. -/
theorem ExponentPart.toInt_ofInt (e : Int) : (ofInt e).toInt = e := by
  have hdigits : digitsValue (ofInt e).digits = e.natAbs := by
    simp only [ofInt]
    split
    · exact (digitsValue_replicate_append 1 _).trans (digitsValue_digitsOf _)
    · exact digitsValue_digitsOf _
  rw [toInt, hdigits]
  by_cases hnegative : e < 0
  · rw [if_pos (by simpa [ofInt] using hnegative)]
    omega
  · rw [if_neg (by simpa [ofInt] using hnegative)]
    omega

theorem ExponentPart.digits_ofInt_ne_nil (e : Int) : (ofInt e).digits ≠ [] := by
  simp only [ofInt]
  split
  · exact List.cons_ne_nil _ _
  · exact digitsOf_ne_nil _

/-! ## Numerals of decimal numbers -/

/-- The numeral of a decimal number: an integer if it is zero or whole with at most sixteen places,
    and else one with a fraction or an exponent that writes the same number. -/
theorem Scientific.toNumeral_cases (d : Scientific) :
    (∃ n : IntNumeral, d.toNumeral = .int n ∧ n.negative = d.negative ∧
        n.magnitude = d.digits * pow10 d.exponent.toNat ∧
        (d.digits = 0 ∨ 0 ≤ d.exponent ∧ (digitCount d.digits : Int) + d.exponent ≤ 16)) ∨
      ∃ n : FloatNumeral, d.toNumeral = .float n ∧ n.IsLexical ∧ n.toScientific = d := by
  obtain ⟨negative, digits, exponent⟩ := d
  have hlength : ∀ place : Nat, ((digitsOf digits).drop place).length = digitCount digits - place := by
    intro place
    rw [List.length_drop, length_digitsOf]
  have hcount := digitCount_pos digits
  simp only [toNumeral, length_digitsOf]
  split
  next hzero => exact .inl ⟨_, rfl, rfl, by simp [hzero], .inl hzero⟩
  next hdigits =>
    split
    -- The first digit is near the point, so no exponent is written.
    next hplace =>
      simp only [Bool.and_eq_true, decide_eq_true_eq] at hplace
      split
      next hwhole => exact .inl ⟨_, rfl, rfl, rfl, .inr ⟨hwhole, hplace.2⟩⟩
      next hpart =>
        split
        next hpoint =>
          -- The point is within the digits.
          have hplaces := hlength ((digitCount digits : Int) + exponent).toNat
          refine .inr ⟨_, rfl, ⟨.inl ?_, nofun⟩, ?_⟩
          · rw [← List.length_pos_iff, hplaces]
            omega
          · simp only [FloatNumeral.toScientific, digitsValue_take_drop, Option.map_none,
              Option.getD_none, mk.injEq, true_and]
            omega
        next hpoint =>
          -- The point is before the digits, perhaps with zeros after it.
          refine .inr ⟨_, rfl, ⟨.inl ?_, nofun⟩, ?_⟩
          · exact List.append_ne_nil_of_right_ne_nil _ (digitsOf_ne_nil _)
          · simp only [FloatNumeral.toScientific, digitsValue_replicate_append,
              digitsValue_digitsOf, List.length_append, List.length_replicate, length_digitsOf,
              Option.map_none, Option.getD_none, Nat.zero_mul, Nat.zero_add, mk.injEq, true_and]
            omega
    next hplace =>
      -- The point is after the first digit, and the exponent makes up for it.
      refine .inr ⟨_, rfl, ⟨.inr rfl, ?_⟩, ?_⟩
      · intro e he
        cases he
        exact ExponentPart.digits_ofInt_ne_nil _
      · have hplaces := hlength 1
        simp only [FloatNumeral.toScientific, digitsValue_take_drop, Option.map_some,
          Option.getD_some, ExponentPart.toInt_ofInt, mk.injEq, true_and]
        omega

/-! ## Numerals of doubles -/

theorem IntNumeral.toInt_ofInt (i : Int) : (IntNumeral.ofInt i).toInt = i := by
  by_cases hnegative : i < 0
  · rw [toInt, if_pos (by simpa [ofInt] using hnegative)]
    change -(i.natAbs : Int) = i
    omega
  · rw [toInt, if_neg (by simpa [ofInt] using hnegative)]
    change (i.natAbs : Int) = i
    omega

theorem cast_toInt (n : IntNumeral) : (n.toInt : ℚ) = signed n.negative n.magnitude := by
  obtain ⟨negative, magnitude⟩ := n
  cases negative <;> simp [signed, IntNumeral.toInt]

/-- A decimal number without a fraction is an integer or its negative. -/
theorem Scientific.toRat_of_whole {d : Scientific} (h : d.digits = 0 ∨ 0 ≤ d.exponent) :
    d.toRat = signed d.negative (d.digits * pow10 d.exponent.toNat : Nat) := by
  rw [Scientific.toRat, signed_inj]
  obtain hzero | hwhole := h
  · simp [hzero]
  · rw [zpow_ten_eq, Int.toNat_of_nonpos (Int.neg_nonpos_of_nonneg hwhole), pow10_zero]
    simp

/-- The shortest numeral of a double denotes the double. -/
theorem toNumeral_shortest (h : IsDouble significand shift) :
    (shortest negative significand shift).toNumeral.IsLexical ∧
      (shortest negative significand shift).toNumeral.toRat? =
        (Binary64.finite negative significand shift).toRat? := by
  have hread := @toBinary64_shortest negative _ _ h
  generalize hd : shortest negative significand shift = d at hread ⊢
  obtain ⟨n, hn, hnegative, hmagnitude, hplaces⟩ | ⟨n, hn, hlexical, hsame⟩ := d.toNumeral_cases
  -- An integer is the double itself, any other numeral is read as it.
  · have heq : d.Equals significand shift := by
      obtain hzero | ⟨hwhole, hplaces⟩ := hplaces
      · rw [Scientific.toBinary64_of_equals isDouble_zero (Scientific.equals_zero hzero)] at hread
        cases hread
        exact Scientific.equals_zero hzero
      · exact equals_shortest h hd hwhole hplaces
    rw [Scientific.toBinary64_of_equals h heq, Binary64.finite.injEq] at hread
    rw [hn, ← hread.1, Scientific.equals_iff_toRat.mp heq]
    refine ⟨trivial, ?_⟩
    rw [Numeral.toRat?, cast_toInt, hnegative, hmagnitude,
      Scientific.toRat_of_whole (hplaces.imp_right And.left)]
  · rw [hn]
    refine ⟨hlexical, ?_⟩
    rw [Numeral.toRat?, FloatNumeral.toBinary64, hsame, hread]

/-- A number that is a double denotes itself, and the shortest numeral of the double that it is
    read as denotes the same. -/
theorem Numeral.IsExact.exists_toNumeral? {n : Numeral} (h : n.IsExact) :
    n.toRat? = some n.toScientific.toRat ∧
      ∃ m, n.toScientific.toBinary64.toNumeral? = some m ∧ m.IsLexical ∧ m.toRat? = n.toRat? := by
  obtain ⟨s, k, hlt, hle, hvalue⟩ := h
  obtain ⟨significand, shift, hdouble, hsame⟩ := exists_isDouble hlt hle
  have heq : n.toScientific.Equals significand shift := by
    rw [Scientific.equals_iff_toRat, ← hvalue, Binary64.toRat?, Binary64.toRat?, hsame]
  have hvalue := Scientific.equals_iff_toRat.mp heq
  have hread := Scientific.toBinary64_of_equals hdouble heq
  have hnumber : n.toRat? = some n.toScientific.toRat := by
    cases n with
    | int n =>
      rw [toRat?, cast_toInt, Scientific.toRat_of_whole (.inr (Int.le_refl 0))]
      simp [toScientific]
    | float n => rw [toRat?, ← hvalue, ← hread]; rfl
  -- What is written back is the shortest numeral of the double, which has the same value.
  obtain ⟨hlexical, hshortest⟩ :=
    @toNumeral_shortest n.toScientific.negative significand shift hdouble
  refine ⟨hnumber, _, ?_, hlexical, ?_⟩
  · rw [hread]
    rfl
  · rw [hshortest, hvalue, hnumber]

end SchemaClasses.Decimal
