import FormulaTable.Decimal.Layout
import FormulaTable.Proofs.Double.Rounding

/-!
# Significant digits

The zeros at the end of a numeral say no more than the power of ten of a decimal does. Without them
the digits of a decimal are those of one number, and its value is a power of ten times that number.
-/

namespace FormulaTable.Decimal

theorem dropZeros_append_zero (cs : List Char) : dropZeros (cs ++ ['0']) = dropZeros cs := by
  simp [dropZeros]

theorem dropZeros_append_of_ne {c : Char} (h : c ≠ '0') (cs : List Char) :
    dropZeros (cs ++ [c]) = cs ++ [c] := by
  simp [dropZeros, h]

theorem numeral_mul_ten {n : Nat} (h : n ≠ 0) : numeral (n * 10) = numeral n ++ ['0'] := by
  have hlast : (n * 10 % 10).digitChar = '0' := by
    rw [Nat.mul_mod_left]
    rfl
  rw [numeral_of_le (by omega), Nat.mul_div_cancel _ (by decide), hlast]

theorem digitChar_ne_zero {n : Nat} (h : n < 10) (hn : n ≠ 0) : n.digitChar ≠ '0' := by
  interval_cases n <;> first | exact absurd rfl hn | decide

theorem dropZeros_numeral_of_mod {n : Nat} (h : n % 10 ≠ 0) :
    dropZeros (numeral n) = numeral n := by
  have hlast : (n % 10).digitChar ≠ '0' := digitChar_ne_zero (Nat.mod_lt n (by decide)) h
  by_cases hlt : n < 10
  · rw [Nat.mod_eq_of_lt hlt] at hlast
    rw [numeral_of_lt hlt]
    exact dropZeros_append_of_ne hlast []
  · rw [numeral_of_le (by omega)]
    exact dropZeros_append_of_ne hlast _

theorem numeral_mul_pow {n : Nat} (h : n ≠ 0) (k : Nat) :
    numeral (n * 10 ^ k) = numeral n ++ List.replicate k '0' := by
  induction k with
  | zero => simp
  | succ k ih =>
    have hne : n * 10 ^ k ≠ 0 := Nat.mul_ne_zero h (Nat.pow_pos (by decide)).ne'
    rw [Nat.pow_succ, ← Nat.mul_assoc, numeral_mul_ten hne, ih, List.replicate_succ',
      List.append_assoc]

theorem dropZeros_append_replicate (cs : List Char) (k : Nat) :
    dropZeros (cs ++ List.replicate k '0') = dropZeros cs := by
  induction k with
  | zero => simp
  | succ k ih => rw [List.replicate_succ', ← List.append_assoc, dropZeros_append_zero, ih]

structure Significant (n core zeros : Nat) : Prop where
  eq : n = core * 10 ^ zeros
  mod : core % 10 ≠ 0

namespace Significant
variable {n core zeros : Nat}

theorem exists_of_ne_zero (h : n ≠ 0) : ∃ core zeros, Significant n core zeros := by
  obtain ⟨zeros, core, hdvd, rfl⟩ := Nat.exists_eq_pow_mul_and_not_dvd h 10 (by decide)
  exact ⟨core, zeros, Nat.mul_comm _ _, by omega⟩

theorem of_mod (h : n % 10 ≠ 0) : Significant n n 0 := ⟨(Nat.mul_one n).symm, h⟩

theorem core_ne_zero (h : Significant n core zeros) : core ≠ 0 := by
  rintro rfl
  exact h.mod rfl

theorem numeral_eq (h : Significant n core zeros) :
    numeral n = numeral core ++ List.replicate zeros '0' := by
  rw [h.eq, numeral_mul_pow h.core_ne_zero]

theorem dropZeros_numeral (h : Significant n core zeros) :
    dropZeros (numeral n) = numeral core := by
  rw [h.numeral_eq, dropZeros_append_replicate, dropZeros_numeral_of_mod h.mod]

theorem digitCount_eq (h : Significant n core zeros) :
    digitCount n = digitCount core + zeros := by
  rw [digitCount, h.numeral_eq, List.length_append, List.length_replicate, digitCount]

end Significant

def width (d : Decimal) : Nat := (dropZeros (numeral d.digits)).length

variable {d d' : Decimal}

theorem width_zero (k : Int) : width ⟨0, k⟩ = 0 := by
  change (dropZeros (numeral 0)).length = 0
  decide

theorem width_eq {core zeros : Nat} (h : Significant d.digits core zeros) :
    d.width = digitCount core := by
  rw [width, h.dropZeros_numeral, digitCount]

theorem width_le {n : Nat} (hn : n ≠ 0) (h : d.digits ≤ 10 ^ n) : d.width ≤ n := by
  by_cases hzero : d.digits = 0
  · rw [width, hzero]
    exact Nat.zero_le n
  · obtain ⟨core, zeros, hd⟩ := Significant.exists_of_ne_zero hzero
    have hcore : core ≤ 10 ^ n := by
      rw [hd.eq] at h
      exact (Nat.le_mul_of_pos_right core (Nat.pow_pos (by decide))).trans h
    have hne : core ≠ 10 ^ n := by
      rintro rfl
      obtain ⟨m, rfl⟩ := Nat.exists_eq_succ_of_ne_zero hn
      exact hd.mod (by rw [Nat.pow_succ, Nat.mul_mod_left])
    rw [width_eq hd]
    exact (Nat.length_toDigits_le_iff (by decide) (by omega)).mpr
      (Nat.lt_of_le_of_ne hcore hne)

theorem one_le_width (h : d.digits ≠ 0) : 1 ≤ d.width := by
  obtain ⟨core, zeros, hd⟩ := Significant.exists_of_ne_zero h
  rw [width_eq hd]
  exact Nat.length_toDigits_pos

theorem value_eq_core {core zeros : Nat} (h : Significant d.digits core zeros) :
    d.value = core * 10 ^ (d.exponent + zeros) := by
  rw [value, h.eq, zpow_add₀ (by norm_num), zpow_natCast]
  push_cast
  ring

theorem lt_pow_width (h : d.digits % 10 ≠ 0) : d.digits < 10 ^ d.width := by
  rw [width_eq (Significant.of_mod h)]
  exact lt_pow_digitCount d.digits

theorem exists_trimmed (h : d.digits ≠ 0) :
    ∃ n : Decimal, n.value = d.value ∧ n.width = d.width ∧ n.digits % 10 ≠ 0 := by
  obtain ⟨core, zeros, hd⟩ := Significant.exists_of_ne_zero h
  refine ⟨⟨core, d.exponent + zeros⟩, (value_eq_core hd).symm, ?_, hd.mod⟩
  rw [width_eq hd, width_eq (Significant.of_mod hd.mod)]

namespace Significant
variable {core zeros : Nat}

theorem value_lt (h : Significant d.digits core zeros) :
    d.value < 10 ^ ((digitCount core : Int) + (d.exponent + zeros)) := by
  rw [value_eq_core h]
  exact Decimal.value_lt ⟨core, _⟩

theorem le_value (h : Significant d.digits core zeros) :
    (10 : ℚ) ^ ((digitCount core : Int) - 1 + (d.exponent + zeros)) ≤ d.value := by
  rw [value_eq_core h]
  exact Decimal.le_value (d := ⟨core, _⟩) h.core_ne_zero

end Significant

theorem value_zero (k : Int) : value ⟨0, k⟩ = 0 := by
  rw [value, Nat.cast_zero, zero_mul]

theorem value_power (k : Int) : value ⟨1, k⟩ = 10 ^ k := by
  rw [value, Nat.cast_one, one_mul]

theorem value_ten (k : Int) : value ⟨10, k⟩ = 10 ^ (k + 1) := by
  rw [value, zpow_add₀ (by norm_num), zpow_one, mul_comm]
  rfl

theorem value_le_value (hp : d.exponent = d'.exponent) (h : d.digits ≤ d'.digits) :
    d.value ≤ d'.value := by
  rw [value, value, hp]
  exact mul_le_mul_of_nonneg_right (by exact_mod_cast h) (zpow_pos (by norm_num) _).le

theorem digits_eq_of_value_eq (hp : d.exponent = d'.exponent)
    (h : d.value = d'.value) : d.digits = d'.digits := by
  rw [value, value, hp] at h
  exact_mod_cast mul_right_cancel₀ (zpow_pos (by norm_num) _).ne' h

theorem digits_eq_mul_pow {k : Nat} (hp : d.exponent = k + d'.exponent)
    (h : d.value = d'.value) : d'.digits = d.digits * 10 ^ k := by
  rw [value, value, hp, zpow_add₀ (by norm_num), zpow_natCast, ← mul_assoc] at h
  exact_mod_cast (mul_right_cancel₀ (zpow_pos (by norm_num) _).ne' h).symm

theorem exponent_le_of_value_eq (h : d.value = d'.value) (hlast : d.digits % 10 ≠ 0) :
    d'.exponent ≤ d.exponent := by
  by_contra hlt
  obtain ⟨k, hk⟩ : ∃ k : Nat, d'.exponent = (k + 1 : Nat) + d.exponent :=
    ⟨(d'.exponent - d.exponent).toNat - 1, by omega⟩
  have hdigits := digits_eq_mul_pow hk h.symm
  rw [Nat.pow_succ, ← Nat.mul_assoc] at hdigits
  exact hlast (by rw [hdigits, Nat.mul_mod_left])

theorem step_le_abs_sub (hp : d.exponent = d'.exponent) (hne : d.digits ≠ d'.digits) :
    (10 : ℚ) ^ d.exponent ≤ |d.value - d'.value| := by
  have hstep : (0 : ℚ) < 10 ^ d.exponent := zpow_pos (by norm_num) _
  have hapart : (1 : ℚ) ≤ |(d.digits : ℚ) - d'.digits| := by
    have hapart : (1 : Int) ≤ |(d.digits : Int) - d'.digits| :=
      Int.one_le_abs (sub_ne_zero.mpr (by exact_mod_cast hne))
    exact_mod_cast hapart
  rw [value, value, ← hp, ← sub_mul, abs_mul, abs_of_pos hstep]
  exact le_mul_of_one_le_left hstep.le hapart

theorem exists_on_grid {k : Int} (h : k ≤ d.exponent) :
    ∃ d' : Decimal, d'.exponent = k ∧ d'.value = d.value := by
  obtain ⟨n, hn⟩ : ∃ n : Nat, d.exponent = n + k := ⟨(d.exponent - k).toNat, by omega⟩
  refine ⟨⟨d.digits * 10 ^ n, k⟩, rfl, ?_⟩
  rw [value, value, hn, zpow_add₀ (by norm_num), zpow_natCast]
  push_cast
  ring

end FormulaTable.Decimal
