import SchemaClasses.Decimal.Shortest
import SchemaClasses.Proofs.Decimal.Rounding

/-!
# Shortest decimals

The shortest decimal number of a double is read back as the double. If it is whole and has at most
sixteen places, it is the double itself.
-/

namespace SchemaClasses.Decimal

variable {negative : Bool} {significand shift : Nat}

/-! ## Equal decimal numbers -/

namespace Scientific

variable {d : Scientific}

theorem equals_mul_ten {digits : Nat} {exponent : Int} :
    Equals ⟨negative, 10 * digits, exponent⟩ significand shift ↔
      Equals ⟨negative, digits, exponent + 1⟩ significand shift := by
  rw [equals_iff, equals_iff]
  dsimp only
  by_cases hnonneg : 0 ≤ exponent
  · have hup : digits * pow10 (exponent + 1).toNat = 10 * digits * pow10 exponent.toNat := by
      rw [show (exponent + 1).toNat = 1 + exponent.toNat by omega, pow10_add, Nat.mul_comm 10,
        Nat.mul_assoc digits]
      rfl
    rw [hup, show (-(exponent + 1)).toNat = (-exponent).toNat by omega]
  · have hdown : pow10 (-exponent).toNat = 10 * pow10 (-(exponent + 1)).toNat := by
      rw [show (-exponent).toNat = 1 + (-(exponent + 1)).toNat by omega, pow10_add]
      rfl
    rw [show (exponent + 1).toNat = exponent.toNat by omega, hdown, Nat.mul_left_comm _ 10,
      Nat.mul_assoc 10, Nat.mul_assoc 10, Nat.mul_right_inj (by decide)]

/-- A zero dropped at the end of the digits is made up for by the exponent. -/
theorem toBinary64_dropEndZero (d : Scientific) : (dropEndZero d).toBinary64 = d.toBinary64 := by
  unfold dropEndZero
  split
  next hzero =>
    rw [← toBinary64_mul_ten, Nat.mul_div_cancel' (Nat.dvd_of_mod_eq_zero hzero)]
  next => rfl

theorem Equals.dropEndZero (heq : d.Equals significand shift) :
    (dropEndZero d).Equals significand shift := by
  unfold Decimal.dropEndZero
  split
  next hzero =>
    rwa [← equals_mul_ten, Nat.mul_div_cancel' (Nat.dvd_of_mod_eq_zero hzero)]
  next => exact heq

theorem exponent_le_dropEndZero (d : Scientific) : d.exponent ≤ (dropEndZero d).exponent := by
  unfold dropEndZero
  split
  next => exact Int.le_add_one (Int.le_refl _)
  next => exact Int.le_refl _

/-- A number that is a double is the one that it is read as. -/
theorem equals_of_toBinary64 {s k : Nat} (hlt : s < pow2 53) (hle : k ≤ maxShift)
    (heq : d.Equals s k) (h : d.toBinary64 = .finite negative significand shift) :
    d.Equals significand shift := by
  obtain ⟨s', k', hdouble, hsame⟩ := exists_isDouble hlt hle
  have heq' : d.Equals s' k' := ⟨by rw [hsame, heq.units]⟩
  rw [toBinary64_of_equals hdouble heq'] at h
  cases h
  exact heq'

/-- A whole number with many binary places is read with a great shift. -/
theorem le_shift_of_toBinary64 (hexponent : 0 ≤ d.exponent) {n : Nat}
    (hn : pow2 n ≤ d.digits * pow10 d.exponent.toNat)
    (h : d.toBinary64 = .finite negative significand shift) : n + 1074 + 1 - 53 ≤ shift := by
  have hdigits : d.digits ≠ 0 := by
    intro hzero
    rw [hzero, Nat.zero_mul] at hn
    exact absurd (pow2_pos n) (Nat.not_lt.mpr hn)
  -- The exponent is not negative, so the number is not taken for zero.
  have hlow : ¬ (digitCount d.digits : Int) + d.exponent < -330 := by omega
  simp only [toBinary64, hdigits, decide_false, Bool.false_or, decide_eq_true_eq, if_neg hlow,
    if_pos hexponent] at h
  split at h
  next => cases h
  next =>
    have hshift := Binary64.le_shift_of_round h
    rw [Nat.div_one] at hshift
    have hunits : pow2 (n + 1074) ≤ d.digits * pow10 d.exponent.toNat * pow2 1074 := by
      rw [pow2_add]
      exact Nat.mul_le_mul_right _ hn
    have hlog := (Nat.le_log2 (Nat.ne_of_gt (Nat.lt_of_lt_of_le (pow2_pos _) hunits))).mpr hunits
    omega

end Scientific

/-! ## Grids -/

theorem exactDecimal_negative (negative : Bool) (significand shift : Nat) :
    (exactDecimal negative significand shift).negative = negative := by
  unfold exactDecimal
  split <;> rfl

/-- The exact decimal number of a double equals it. -/
theorem equals_exactDecimal (negative : Bool) (significand shift : Nat) :
    (exactDecimal negative significand shift).Equals significand shift := by
  unfold exactDecimal
  split
  next hwhole =>
    refine ⟨?_⟩
    simp only [Int.toNat_zero, Int.neg_zero, pow10_zero, Nat.mul_one]
    rw [Nat.mul_assoc, ← pow2_add, Nat.sub_add_cancel hwhole]
  -- A fraction of twos is one of tens once it is multiplied by as many fives.
  next hpart =>
    have hten : pow10 (1074 - shift) = Nat.pow 5 (1074 - shift) * pow2 (1074 - shift) :=
      Nat.mul_pow 5 2 _
    have hunit : pow2 1074 = pow2 shift * pow2 (1074 - shift) := by
      rw [← pow2_add, Nat.add_sub_cancel' (Nat.le_of_not_le hpart)]
    refine ⟨?_⟩
    rw [show ((shift : Int) - 1074).toNat = 0 by omega,
      show (-((shift : Int) - 1074)).toNat = 1074 - shift by omega, pow10_zero, Nat.mul_one, hten,
      hunit]
    ring

/-- A whole double lies on every grid that is fine enough, and is tried first there. -/
theorem find?_gridNeighbours (h : IsDouble significand shift) (hwhole : 1074 ≤ shift)
    {exponent : Int} (hexponent : exponent ≤ 0) :
    ∃ hit : Scientific, (gridNeighbours negative significand shift exponent).find?
        (·.toBinary64 = .finite negative significand shift) = some hit ∧
      hit.Equals significand shift := by
  have hsplit : significand * pow2 shift * pow10 (-exponent).toNat =
      significand * pow2 (shift - 1074) * pow10 (-exponent).toNat * pow2 1074 := by
    rw [← Nat.sub_add_cancel hwhole, pow2_add, Nat.add_sub_cancel]
    ring
  have hgrid : pow10 exponent.toNat = 1 := by
    rw [Int.toNat_of_nonpos hexponent, pow10_zero]
  have heq : Scientific.Equals
      ⟨negative, significand * pow2 (shift - 1074) * pow10 (-exponent).toNat, exponent⟩
      significand shift := ⟨by rw [hgrid, Nat.mul_one, hsplit]⟩
  have hread := Scientific.toBinary64_of_equals h heq
  -- There is no remainder, so the neighbour below is the nearer one.
  refine ⟨_, ?_, heq⟩
  simp only [gridNeighbours, hsplit, hgrid, Nat.mul_one, Nat.mul_div_cancel _ (pow2_pos 1074),
    Nat.mul_mod_left, Nat.mul_zero, pow2_pos, decide_true, Bool.true_or, if_true]
  rw [List.find?_cons_of_pos (by simpa using hread)]

section

-- Opening the search would open the comparison of the neighbours too, which has great powers.
attribute [local irreducible] gridNeighbours

theorem searchGrids_succ (x : Binary64) (negative : Bool) (significand shift : Nat) (place : Int)
    (grids count : Nat) :
    searchGrids x negative significand shift place (grids + 1) count =
      match (gridNeighbours negative significand shift (place - count)).find?
          (·.toBinary64 = x) with
      | some hit => dropEndZero hit
      | none => searchGrids x negative significand shift place grids (count + 1) := rfl

end

/-- Whichever grid the search ends on, what it finds there reads back as the double. After the last
    one it is the exact number. -/
theorem toBinary64_searchGrids (h : IsDouble significand shift) (place : Int) (grids count : Nat) :
    (searchGrids (.finite negative significand shift) negative significand shift place grids
      count).toBinary64 = .finite negative significand shift := by
  induction grids generalizing count with
  | zero =>
    have hexact := Scientific.toBinary64_of_equals h (equals_exactDecimal negative significand shift)
    rwa [exactDecimal_negative] at hexact
  | succ grids ih =>
    rw [searchGrids_succ]
    split
    next hit hfound =>
      rw [Scientific.toBinary64_dropEndZero]
      simpa using List.find?_some hfound
    next => exact ih _

/-- What is found for a whole double is the double itself unless it ends in zeros. -/
theorem equals_searchGrids (h : IsDouble significand shift) (hwhole : 1074 ≤ shift) (place : Int)
    (grids count : Nat)
    (hexponent : (searchGrids (.finite negative significand shift) negative significand shift place
      grids count).exponent ≤ 0) :
    (searchGrids (.finite negative significand shift) negative significand shift place grids
      count).Equals significand shift := by
  induction grids generalizing count with
  | zero => exact equals_exactDecimal ..
  | succ grids ih =>
    rw [searchGrids_succ] at hexponent ⊢
    split at hexponent
    next hit hfound =>
      -- The grid is no coarser than the number found on it.
      have hgrid : hit.exponent = place - (count : Int) := by
        have hmem := List.mem_of_find?_eq_some hfound
        simp only [gridNeighbours] at hmem
        split at hmem <;>
          · rw [List.mem_cons, List.mem_singleton] at hmem
            obtain rfl | rfl := hmem <;> rfl
      have hle := Int.le_trans (Scientific.exponent_le_dropEndZero hit) hexponent
      obtain ⟨exact, hexact, heq⟩ :=
        @find?_gridNeighbours negative _ _ h hwhole _ (hgrid ▸ hle)
      rw [hfound, Option.some.injEq] at hexact
      exact (hexact ▸ heq).dropEndZero
    next => exact ih _ hexponent

/-! ## The shortest one -/

/-- The shortest decimal number of a double reads back as it. -/
theorem toBinary64_shortest (h : IsDouble significand shift) :
    (shortest negative significand shift).toBinary64 = .finite negative significand shift := by
  unfold shortest
  split
  next hzero =>
    subst hzero
    rw [h.shift_eq_zero]
    exact Scientific.toBinary64_of_equals isDouble_zero (Scientific.equals_zero rfl)
  next => exact toBinary64_searchGrids h _ _ _

/-- A whole number with at most sixteen places that is the shortest one of a double is that double.
    The even ones among them are doubles anyway, and the odd ones that are not are no shortest. -/
theorem equals_shortest (h : IsDouble significand shift) {d : Scientific}
    (hd : shortest negative significand shift = d) (hexponent : 0 ≤ d.exponent)
    (hplaces : (digitCount d.digits : Int) + d.exponent ≤ 16) : d.Equals significand shift := by
  have hread : d.toBinary64 = .finite negative significand shift := hd ▸ toBinary64_shortest h
  have hdown : (-d.exponent).toNat = 0 := by omega
  have hlt : d.digits * pow10 d.exponent.toNat < pow10 16 := calc
    _ < pow10 (digitCount d.digits) * pow10 d.exponent.toNat :=
      Nat.mul_lt_mul_of_pos_right (lt_pow_digitCount _) (pow10_pos _)
    _ = pow10 (digitCount d.digits + d.exponent.toNat) := (pow10_add ..).symm
    _ ≤ pow10 16 := pow10_le (by omega)
  by_cases hsmall : d.digits * pow10 d.exponent.toNat < pow2 53
  · have heq : d.Equals (d.digits * pow10 d.exponent.toNat) 1074 :=
      ⟨by rw [hdown, pow10_zero, Nat.mul_one]⟩
    exact Scientific.equals_of_toBinary64 hsmall (by decide) heq hread
  by_cases heven : 2 ∣ d.digits * pow10 d.exponent.toNat
  · obtain ⟨half, hhalf⟩ := heven
    have heq : d.Equals half 1075 := by
      refine ⟨?_⟩
      rw [hdown, pow10_zero, Nat.mul_one, hhalf, pow2_add 1 1074, ← Nat.mul_assoc, Nat.mul_comm 2]
      rfl
    have hpow : pow10 16 < 2 * pow2 53 := by decide
    exact Scientific.equals_of_toBinary64 (by omega) (by decide) heq hread
  -- An odd number that is no double has no zero at its end, and is read as a whole double.
  have hzero : d.exponent = 0 := by
    by_contra hne
    refine heven (Dvd.dvd.mul_left ?_ _)
    rw [show d.exponent.toNat = 1 + (d.exponent.toNat - 1) by omega, pow10_add]
    exact Dvd.dvd.mul_right (by decide) _
  have hwhole : 1074 ≤ shift :=
    Nat.le_of_succ_le (Scientific.le_shift_of_toBinary64 hexponent (Nat.not_lt.mp hsmall) hread)
  unfold shortest at hd
  split at hd
  next =>
    subst hd
    exact absurd (pow2_pos 53) (by simpa using hsmall)
  next =>
    subst hd
    exact equals_searchGrids h hwhole _ _ _ hzero.le

end SchemaClasses.Decimal
