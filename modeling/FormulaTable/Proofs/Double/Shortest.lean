import FormulaTable.Double.Shortest
import FormulaTable.Proofs.Double.Rounding

/-!
# The shortest decimal

The search for the shortest decimal of a double ends with one that reads back as the same double, on
the finest grid at the latest. It lies on a grid of its own exponent next to the double's value.
-/

namespace FormulaTable.Double

variable {x : Float}

theorem nearestBits_of_exact (hx : x.isFinite = true) {num den : Nat} (h : 0 < den)
    (he : num * unitsPerOne = units x * den) : nearestBits num den = bits x % 2 ^ 63 := by
  have hclose := (between_roundedWord (num * unitsPerOne) h).abs_sub_le (bits x % 2 ^ 63)
  rw [← units_eq, he, sub_self, abs_zero] at hclose
  have hzero := abs_nonpos_iff.mp hclose
  have hunits : units x * den = unitsOf (roundedWord (units x * den) den) * den := by
    exact_mod_cast sub_eq_zero.mp hzero
  rw [units_eq] at hunits
  have hword := unitsOf_strictMono.injective (Nat.eq_of_mul_eq_mul_right h hunits)
  have htop := isFinite_iff_bits.mp hx
  rw [nearestBits_eq_min, he, units_eq, ← hword]
  omega

def floorOn (x : Float) (p : Int) : Nat :=
  units x * 10 ^ (-p).toNat / (unitsPerOne * 10 ^ p.toNat)

def Neighbours (x : Float) (d : Decimal) : Prop :=
  d.digits = floorOn x d.exponent ∨ d.digits = floorOn x d.exponent + 1

theorem toEven_neighbour (num den : Nat) :
    Rounding.toEven num den = num / den ∨ Rounding.toEven num den = num / den + 1 := by
  unfold Rounding.toEven
  dsimp only
  split
  · exact .inl rfl
  · split
    · exact .inr rfl
    · rcases Nat.mod_two_eq_zero_or_one (num / den) with h | h
      · exact .inl (by omega)
      · exact .inr (by omega)

theorem hit?_eq_some {p : Int} {d : Decimal} (h : hit? x p = some d) :
    ReadsBack x d ∧ Neighbours x d := by
  unfold hit? at h
  extract_lets num den below above at h
  have hfloor : floorOn x p = num / den := rfl
  have hnear : Neighbours x below ∧ Neighbours x above :=
    ⟨.inl hfloor.symm, .inr (by rw [hfloor])⟩
  split at h
  · next hbelow =>
    split at h
    · next habove =>
      obtain rfl := Option.some.inj h
      rcases toEven_neighbour num den with he | he
      · rw [he]
        exact ⟨hbelow, hnear.1⟩
      · rw [he]
        exact ⟨habove, hnear.2⟩
    · obtain rfl := Option.some.inj h
      exact ⟨hbelow, hnear.1⟩
  · split at h
    · next habove =>
      obtain rfl := Option.some.inj h
      exact ⟨habove, hnear.2⟩
    · cases h

theorem magnitude_eq_scaled (x : Float) (p : Int) :
    magnitude x =
      ((units x * 10 ^ (-p).toNat : Nat) : ℚ) / (unitsPerOne * 10 ^ p.toNat : Nat) * 10 ^ p := by
  have hone : (unitsPerOne : ℚ) ≠ 0 := by exact_mod_cast unitsPerOne_pos.ne'
  rw [magnitude]
  generalize unitsPerOne = one at hone ⊢
  rcases le_total 0 p with hp | hp
  · obtain ⟨n, rfl⟩ := Int.eq_ofNat_of_zero_le hp
    have hzero : (-(n : Int)).toNat = 0 := by omega
    rw [hzero, Int.toNat_natCast, zpow_natCast]
    push_cast
    field_simp
  · obtain ⟨n, hn⟩ := Int.eq_ofNat_of_zero_le (Int.neg_nonneg_of_nonpos hp)
    obtain rfl : p = -(n : Int) := by omega
    have hzero : (-(n : Int)).toNat = 0 := by omega
    rw [hzero, neg_neg, Int.toNat_natCast, zpow_neg, zpow_natCast]
    push_cast
    field_simp

theorem readsBack_of_value_eq (hx : x.isFinite = true) {d : Decimal} (h : d.value = magnitude x) :
    ReadsBack x d := by
  have hden : (d.den : ℚ) ≠ 0 := by exact_mod_cast d.den_pos.ne'
  have hone : (unitsPerOne : ℚ) ≠ 0 := by exact_mod_cast unitsPerOne_pos.ne'
  rw [Decimal.value_eq_div, magnitude, div_eq_div_iff hden hone] at h
  exact nearestBits_of_exact hx d.den_pos (by exact_mod_cast h)

theorem value_finest (x : Float) {p : Int} (hp : p ≤ -finestPlace) :
    Decimal.value ⟨units x * 10 ^ (-p).toNat / unitsPerOne, p⟩ = magnitude x := by
  obtain ⟨n, hn⟩ : ∃ n, (-p).toNat = finestPlace + n := ⟨(-p).toNat - finestPlace, by omega⟩
  have hzero : p.toNat = 0 := by omega
  have htwo : 2 ∣ 10 := by decide
  have hdivides : unitsPerOne ∣ 10 ^ (-p).toNat := by
    rw [hn, Nat.pow_add, unitsPerOne]
    exact Dvd.dvd.mul_right (pow_dvd_pow_of_dvd htwo finestPlace) _
  have hone : (unitsPerOne : ℚ) ≠ 0 := by exact_mod_cast unitsPerOne_pos.ne'
  rw [magnitude_eq_scaled x p, hzero, Nat.pow_zero, Nat.mul_one, Decimal.value,
    Nat.cast_div (Dvd.dvd.mul_left hdivides _) hone]

theorem firstHit_readsBack (hx : x.isFinite = true) {fuel : Nat} {p : Int}
    (hp : p - fuel ≤ -finestPlace) :
    ReadsBack x (firstHit x fuel p) ∧ Neighbours x (firstHit x fuel p) := by
  -- The fuel left reaches from the grid at hand down to the finest one.
  induction fuel generalizing p with
  | zero =>
    have hfinest : p ≤ -finestPlace := by
      rw [Int.natCast_zero, sub_zero] at hp
      exact hp
    have hzero : p.toNat = 0 := Int.toNat_of_nonpos (by omega)
    have hfloor : units x * 10 ^ (-p).toNat / unitsPerOne = floorOn x p := by
      rw [floorOn, hzero, Nat.pow_zero, Nat.mul_one]
    have hread := readsBack_of_value_eq hx (value_finest x hfinest)
    rw [firstHit]
    exact ⟨hread, .inl hfloor⟩
  | succ fuel ih =>
    rw [firstHit]
    cases h : hit? x p with
    | some d => exact hit?_eq_some h
    | none =>
      rw [Option.getD_none]
      exact ih (by omega)

theorem units_eq_zero_iff : units x = 0 ↔ bits x % 2 ^ 63 = 0 := by
  rw [units_eq]
  have hzero : unitsOf 0 = 0 := rfl
  constructor
  · intro h
    exact unitsOf_strictMono.injective (h.trans hzero.symm)
  · intro h
    rw [h, hzero]

theorem shortest_readsBack (hx : x.isFinite = true) :
    ReadsBack x (shortest x) ∧ Neighbours x (shortest x) := by
  unfold shortest
  split
  · next hzero =>
    have hword := units_eq_zero_iff.mp hzero
    have hfloor : 0 = floorOn x 0 := by rw [floorOn, hzero, Nat.zero_mul, Nat.zero_div]
    constructor
    · rw [ReadsBack, hword]
      exact nearestBits_zero (Decimal.den_pos _)
    · exact .inl hfloor
  · exact firstHit_readsBack hx (by omega)

theorem floorOn_spec (x : Float) (p : Int) :
    (floorOn x p : ℚ) * 10 ^ p ≤ magnitude x ∧ magnitude x < (floorOn x p + 1 : Nat) * 10 ^ p := by
  have hstep : (0 : ℚ) < 10 ^ p := zpow_pos (by norm_num) _
  have hden : 0 < unitsPerOne * 10 ^ p.toNat :=
    Nat.mul_pos unitsPerOne_pos (Nat.pow_pos (by decide))
  rw [magnitude_eq_scaled x p, floorOn]
  generalize unitsPerOne * 10 ^ p.toNat = den at hden ⊢
  generalize units x * 10 ^ (-p).toNat = num
  constructor
  · exact mul_le_mul_of_nonneg_right Nat.cast_div_le hstep.le
  · refine mul_lt_mul_of_pos_right ?_ hstep
    rw [div_lt_iff₀ (by exact_mod_cast hden)]
    exact_mod_cast (Nat.div_lt_iff_lt_mul hden).mp (Nat.lt_succ_self (num / den))

theorem Neighbours.abs_sub_le {d : Decimal} (h : Neighbours x d) :
    |d.value - magnitude x| ≤ 10 ^ d.exponent := by
  obtain ⟨hlow, hhigh⟩ := floorOn_spec x d.exponent
  have hstep : (0 : ℚ) < 10 ^ d.exponent := zpow_pos (by norm_num) _
  have hnext : ((floorOn x d.exponent + 1 : Nat) : ℚ) * 10 ^ d.exponent =
      floorOn x d.exponent * 10 ^ d.exponent + 10 ^ d.exponent := by
    push_cast
    ring
  rw [hnext] at hhigh
  rw [Decimal.value]
  rcases h with h | h
  · rw [h]
    exact abs_le.mpr ⟨by linarith, by linarith⟩
  · rw [h, hnext]
    exact abs_le.mpr ⟨by linarith, by linarith⟩

theorem ReadsBack.value_lt (hx : x.isFinite = true) {d : Decimal} (h : ReadsBack x d) :
    d.value < 2 ^ 1024 - 2 ^ 970 := by
  rw [Decimal.value_eq_div, ← nearestBits_lt_infinity_iff d.num d.den_pos, h]
  exact isFinite_iff_bits.mp hx

end FormulaTable.Double
