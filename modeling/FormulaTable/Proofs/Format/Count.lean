import FormulaTable.NumberFormat
import FormulaTable.Proofs.Double.Shortest

/-!
# The number that a format shows

A format shows a count of its last place, rounded from the shortest decimal of a double. It is at
most half a place away from that decimal, has fewer than 400 digits for every finite double, and
without a percentage the number shown does not round to an infinity.
-/

namespace FormulaTable

theorem Rounding.halfUp_within_half (num : Nat) {den : Nat} (h : 0 < den) :
    2 * num ≤ (2 * halfUp num den + 1) * den ∧ 2 * halfUp num den * den ≤ 2 * num + den := by
  have hdiv := Nat.div_add_mod (2 * num + den) (2 * den)
  have hmod := Nat.mod_lt (2 * num + den) (Nat.mul_pos two_pos h)
  rw [halfUp]
  generalize (2 * num + den) / (2 * den) = q at hdiv ⊢
  have hodd : (2 * q + 1) * den = 2 * den * q + den := by ring
  have hdouble : 2 * q * den = 2 * den * q := by ring
  omega

namespace Decimal

theorem value_nonneg (d : Decimal) : 0 ≤ d.value :=
  mul_nonneg (Nat.cast_nonneg _) (zpow_pos (by norm_num) _).le

theorem abs_countOf_sub_le (places : Nat) (d : Decimal) :
    |(countOf places d : ℚ) - d.value * 10 ^ places| ≤ 1 / 2 := by
  have hden : (0 : ℚ) < d.den := by exact_mod_cast d.den_pos
  obtain ⟨hbelow, habove⟩ := Rounding.halfUp_within_half (d.num * 10 ^ places) d.den_pos
  rw [countOf, value_eq_div]
  generalize Rounding.halfUp (d.num * 10 ^ places) d.den = count at hbelow habove ⊢
  have hbelow : (2 * (d.num * 10 ^ places) : ℚ) ≤ (2 * count + 1) * d.den := by
    exact_mod_cast hbelow
  have habove : (2 * count * d.den : ℚ) ≤ 2 * (d.num * 10 ^ places) + d.den := by
    exact_mod_cast habove
  have hquotient : (d.num : ℚ) / d.den * 10 ^ places = d.num * 10 ^ places / d.den :=
    div_mul_eq_mul_div ..
  rw [hquotient, abs_le]
  constructor
  · have hle : (d.num : ℚ) * 10 ^ places / d.den ≤ count + 1 / 2 := by
      rw [div_le_iff₀ hden]
      linarith
    linarith
  · have hle : (count : ℚ) - 1 / 2 ≤ d.num * 10 ^ places / d.den := by
      rw [le_div_iff₀ hden]
      linarith
    linarith

theorem countOf_of_le {places : Nat} {d : Decimal} (h : -d.exponent ≤ places) :
    (countOf places d : ℚ) = d.value * 10 ^ places := by
  have hplaces : places = (-d.exponent).toNat + (places - (-d.exponent).toNat) := by omega
  have hwhole : d.num * 10 ^ places = d.num * 10 ^ (places - (-d.exponent).toNat) * d.den := by
    rw [den, Nat.mul_assoc, ← Nat.pow_add, Nat.add_comm, ← hplaces]
  have hden : (d.den : ℚ) ≠ 0 := by exact_mod_cast d.den_pos.ne'
  have hcount : countOf places d = d.num * 10 ^ (places - (-d.exponent).toNat) := by
    rw [countOf, hwhole, Rounding.halfUp_mul_right _ d.den_pos]
  have hscaled : (d.num : ℚ) * 10 ^ places = countOf places d * d.den := by
    rw [hcount]
    exact_mod_cast hwhole
  rw [value_eq_div, div_mul_eq_mul_div, hscaled, mul_div_cancel_right₀ _ hden]

end Decimal

namespace Double
variable {x : Float}

theorem magnitude_le (hx : x.isFinite = true) : magnitude x ≤ 2 ^ 1024 - 2 ^ 971 := by
  -- The greatest finite word is the last one of its binade.
  have hword : bits x % 2 ^ 63 ≤ 2045 * 2 ^ 52 + (2 ^ 53 - 1) := by
    have htop := isFinite_iff_bits.mp hx
    rw [infinityBits] at htop
    omega
  have hunits := unitsOf_strictMono.monotone hword
  have hplaces : 2045 = 971 + finestPlace := rfl
  have hsplit (m n : Nat) : (2 ^ 53 - 1) * 2 ^ (m + n) = (2 ^ 53 - 1) * 2 ^ m * 2 ^ n := by
    rw [Nat.pow_add, Nat.mul_assoc]
  rw [← units_eq, unitsOf_binade ⟨by omega, by omega⟩, hplaces, hsplit 971 finestPlace,
    ← unitsPerOne] at hunits
  have hone : (0 : ℚ) < unitsPerOne := by exact_mod_cast unitsPerOne_pos
  have hpow (k : Nat) : (2 : ℚ) ^ (53 + k) - 2 ^ k = ((2 ^ 53 - 1) * 2 ^ k : Nat) := by
    push_cast
    ring
  rw [magnitude, hpow 971, div_le_iff₀ hone]
  generalize unitsPerOne = one at hunits ⊢
  generalize (2 ^ 53 - 1) * 2 ^ 971 = greatest at hunits ⊢
  exact_mod_cast hunits

theorem units_of_beq_zero (h : (x == 0) = true) : units x = 0 := by
  obtain ⟨-, -, rfl | ⟨rfl, -⟩ | ⟨rfl, -⟩⟩ := Float.beq_iff_ne_nan_and_eq.mp h
  · decide
  · decide
  · decide

theorem inv_unitsPerOne_le : (unitsPerOne : ℚ)⁻¹ ≤ (10 ^ 6)⁻¹ := by
  have hunits : 10 ^ 6 ≤ unitsPerOne :=
    calc 10 ^ 6 ≤ 2 ^ 20 := by decide
      _ ≤ unitsPerOne := Nat.pow_le_pow_right (by decide) (by decide)
  exact inv_anti₀ (by norm_num) (by exact_mod_cast hunits)

theorem Rounds.beq_zero_eq_false {q : ℚ} (h : Rounds q x) (hx : x.isFinite = true)
    (hq : (unitsPerOne : ℚ)⁻¹ ≤ q) : (x == 0) = false := by
  by_contra hcontra
  have hzero : magnitude x = 0 := by
    rw [magnitude, units_of_beq_zero (by simpa using hcontra), Nat.cast_zero, zero_div]
  -- The least positive double would be nearer.
  have hword : bits (ofMagnitude false 1) % 2 ^ 63 = 1 := word_ofMagnitude false (by decide)
  have hleast : magnitude (ofMagnitude false 1) = (unitsPerOne : ℚ)⁻¹ := by
    have hunits : unitsOf 1 = 1 := rfl
    rw [magnitude, units_eq, hword, hunits, Nat.cast_one, one_div]
  have hfinite : (ofMagnitude false 1).isFinite = true := by
    rw [isFinite_iff_bits, hword]
    decide
  have hnear := h.nearest hx _ hfinite
  have hpos : (0 : ℚ) < (unitsPerOne : ℚ)⁻¹ := inv_pos.mpr (by exact_mod_cast unitsPerOne_pos)
  rw [hzero, hleast, sub_zero, abs_of_pos (hpos.trans_le hq), abs_of_nonneg (sub_nonneg.mpr hq)]
    at hnear
  linarith

end Double

namespace NumberFormat
variable {x : Float} {f : NumberFormat}

theorem places_le (f : NumberFormat) : f.places ≤ 6 := by cases f <;> decide

def shownDecimal (f : NumberFormat) (x : Float) : Decimal :=
  let d := Double.shortest x
  if f.percent then ⟨d.digits, d.exponent + 2⟩ else d

theorem shownCount_eq (f : NumberFormat) (x : Float) :
    f.shownCount x = Decimal.countOf f.places (f.shownDecimal x) := rfl

theorem shownDecimal_of_not_percent (hp : f.percent = false) (x : Float) :
    f.shownDecimal x = Double.shortest x := by
  rw [shownDecimal, hp]
  rfl

theorem value_shownDecimal_le (f : NumberFormat) (x : Float) :
    (f.shownDecimal x).value ≤ (Double.shortest x).value * 100 := by
  unfold shownDecimal
  extract_lets d
  split
  · rw [Decimal.value, Decimal.value, zpow_add₀ (by norm_num)]
    linarith
  · exact le_mul_of_one_le_right d.value_nonneg (by norm_num)

theorem shownCount_lt (hx : x.isFinite = true) (f : NumberFormat) : f.shownCount x < 10 ^ 400 := by
  have hvalue := (Double.shortest_readsBack hx).1.value_lt hx
  have hshown := f.value_shownDecimal_le x
  have hcount := (abs_le.mp (Decimal.abs_countOf_sub_le f.places (f.shownDecimal x))).2
  have hplaces : (10 : ℚ) ^ f.places ≤ 10 ^ 6 := pow_le_pow_right₀ (by norm_num) f.places_le
  have hscaled : (f.shownDecimal x).value * 10 ^ f.places ≤
      (Double.shortest x).value * 100 * 10 ^ 6 :=
    mul_le_mul hshown hplaces (pow_nonneg (by norm_num) _)
      ((Decimal.value_nonneg _).trans hshown)
  have htop : (2 : ℚ) ^ 1024 * 2 ^ 28 ≤ 10 ^ 400 := by
    rw [← pow_add]
    exact Double.two_pow_le_ten_pow (by decide)
  have hhalf : (0 : ℚ) ≤ 2 ^ 970 := pow_nonneg (by norm_num) 970
  have hone : (1 : ℚ) ≤ 2 ^ 1024 := one_le_pow₀ (by norm_num)
  rw [← shownCount_eq] at hcount
  have hlt : (f.shownCount x : ℚ) < 10 ^ 400 := by
    generalize (2 : ℚ) ^ 1024 = bound at *
    generalize (2 : ℚ) ^ 970 = half at *
    generalize (10 : ℚ) ^ 400 = top at *
    linarith
  exact_mod_cast hlt

theorem shown_lt (hx : x.isFinite = true) (hp : f.percent = false) :
    (f.shownCount x : ℚ) / 10 ^ f.places < 2 ^ 1024 - 2 ^ 970 := by
  obtain ⟨hread, hnear⟩ := Double.shortest_readsBack hx
  have hvalue := hread.value_lt hx
  have hscale : (1 : ℚ) ≤ 10 ^ f.places := one_le_pow₀ (by norm_num)
  have hpositive : (0 : ℚ) < 10 ^ f.places := one_pos.trans_le hscale
  rw [shownCount_eq, shownDecimal_of_not_percent hp, div_lt_iff₀ hpositive]
  by_cases hplaces : -(Double.shortest x).exponent ≤ f.places
  · rw [Decimal.countOf_of_le hplaces]
    exact mul_lt_mul_of_pos_right hvalue hpositive
  · -- The last digit is behind the point, so that the decimal is close to the double.
    have hstep : (10 : ℚ) ^ (Double.shortest x).exponent ≤ 1 :=
      zpow_le_one_of_nonpos₀ (by norm_num) (by omega)
    have hclose : (Double.shortest x).value - Double.magnitude x ≤ 1 :=
      (abs_le.mp hnear.abs_sub_le).2.trans hstep
    have hmagnitude := Double.magnitude_le hx
    have hcount := (abs_le.mp (Decimal.abs_countOf_sub_le f.places (Double.shortest x))).2
    have hdouble : (2 : ℚ) ^ 971 = 2 * 2 ^ 970 := pow_succ' 2 970
    have htwo : (2 : ℚ) < 2 ^ 970 := lt_self_pow₀ (by norm_num) (by decide)
    have hroom : (Double.shortest x).value + 1 < 2 ^ 1024 - 2 ^ 970 := by
      rw [hdouble] at hmagnitude
      generalize (2 : ℚ) ^ 1024 = bound at hmagnitude ⊢
      generalize (2 : ℚ) ^ 970 = half at hmagnitude htwo ⊢
      linarith only [hclose, hmagnitude, htwo]
    calc (Decimal.countOf f.places (Double.shortest x) : ℚ)
        ≤ (Double.shortest x).value * 10 ^ f.places + 1 / 2 := by linarith
      _ ≤ ((Double.shortest x).value + 1) * 10 ^ f.places := by
        rw [add_mul]
        linarith
      _ < (2 ^ 1024 - 2 ^ 970) * 10 ^ f.places := mul_lt_mul_of_pos_right hroom hpositive

end NumberFormat
end FormulaTable
