import FormulaTable.Proofs.Decimal.Significant
import FormulaTable.Proofs.Double.Order

/-!
# The fewest digits

The search for the shortest decimal of a double starts on the grid of its first digit and stops on
the first grid with a decimal that reads back. So no decimal that reads back has fewer digits, and
17 digits are always enough.
-/

namespace FormulaTable

namespace Rounding
variable {den : Nat}

theorem abs_sub_toEven_le (num : Nat) (h : 0 < den) :
    |(num : ℚ) / den - toEven num den| ≤ 1 / 2 := by
  have hd : (0 : ℚ) < den := by exact_mod_cast h
  obtain ⟨hup, hdown⟩ := toEven_within_half num h
  have hup : (2 * num : ℚ) ≤ (2 * toEven num den + 1) * den := by exact_mod_cast hup
  have hdown : (2 * toEven num den * den : ℚ) ≤ 2 * num + den := by exact_mod_cast hdown
  have hlow : (toEven num den : ℚ) - 1 / 2 ≤ num / den := by
    rw [le_div_iff₀ hd]
    linarith
  have hhigh : (num : ℚ) / den ≤ toEven num den + 1 / 2 := by
    rw [div_le_iff₀ hd]
    linarith
  exact abs_le.mpr ⟨by linarith, by linarith⟩

end Rounding

namespace Decimal

theorem ten_zpow_eq (k : Int) : (10 : ℚ) ^ k = (10 ^ k.toNat : Nat) / (10 ^ (-k).toNat : Nat) := by
  have h := value_eq_div ⟨1, k⟩
  simpa [value, num, den] using h

theorem pow_digitCount_le_cast {n : Nat} (h : n ≠ 0) :
    (10 : ℚ) ^ ((digitCount n : Int) - 1) ≤ n := by
  have hle := le_value (d := ⟨n, 0⟩) h
  simpa [value] using hle

theorem magnitude_spec {num den : Nat} (hn : num ≠ 0) (hd : den ≠ 0) :
    (10 : ℚ) ^ magnitude num den ≤ num / den ∧
      (num : ℚ) / den < 10 ^ (magnitude num den + 1) := by
  have hten : (10 : ℚ) ≠ 0 := by norm_num
  have hpos : (0 : ℚ) < den := by exact_mod_cast Nat.pos_of_ne_zero hd
  have hlow : (10 : ℚ) ^ ((digitCount num : Int) - 1) ≤ num := pow_digitCount_le_cast hn
  have hlow' : (10 : ℚ) ^ ((digitCount den : Int) - 1) ≤ den := pow_digitCount_le_cast hd
  have hhigh : (num : ℚ) < 10 ^ (digitCount num : Int) := by exact_mod_cast lt_pow_digitCount num
  have hhigh' : (den : ℚ) < 10 ^ (digitCount den : Int) := by exact_mod_cast lt_pow_digitCount den
  unfold magnitude
  extract_lets k
  have htest : den * 10 ^ k.toNat ≤ num * 10 ^ (-k).toNat ↔ (10 : ℚ) ^ k ≤ num / den := by
    have hscale : (0 : ℚ) < (10 ^ (-k).toNat : Nat) := by
      exact_mod_cast Nat.pow_pos (by decide)
    rw [ten_zpow_eq, div_le_div_iff₀ hscale hpos, mul_comm ((10 ^ k.toNat : Nat) : ℚ)]
    exact_mod_cast Iff.rfl
  split
  · next h =>
    refine ⟨htest.mp h, ?_⟩
    rw [div_lt_iff₀ hpos]
    calc (num : ℚ) < 10 ^ (digitCount num : Int) := hhigh
      _ = 10 ^ (k + 1) * 10 ^ ((digitCount den : Int) - 1) := by
        rw [← zpow_add₀ hten]
        congr 1
        omega
      _ ≤ 10 ^ (k + 1) * den := mul_le_mul_of_nonneg_left hlow' (zpow_pos (by norm_num) _).le
  · next h =>
    rw [htest, not_le] at h
    refine ⟨?_, by simpa using h⟩
    rw [le_div_iff₀ hpos]
    calc (10 : ℚ) ^ (k - 1) * den
        ≤ 10 ^ (k - 1) * 10 ^ (digitCount den : Int) :=
          mul_le_mul_of_nonneg_left hhigh'.le (zpow_pos (by norm_num) _).le
      _ = 10 ^ ((digitCount num : Int) - 1) := by
        rw [← zpow_add₀ hten]
        congr 1
        omega
      _ ≤ num := hlow

end Decimal

namespace Double
open Decimal (value_le_value value_power value_ten)
variable {x : Float} {p : Int} {d : Decimal}

def firstPlace (x : Float) : Int := Decimal.magnitude (units x) unitsPerOne

theorem firstPlace_spec (h : units x ≠ 0) :
    (10 : ℚ) ^ firstPlace x ≤ magnitude x ∧ magnitude x < 10 ^ (firstPlace x + 1) :=
  Decimal.magnitude_spec h unitsPerOne_pos.ne'

theorem shortest_eq_firstHit (h : units x ≠ 0) :
    shortest x = firstHit x (firstPlace x + finestPlace).toNat (firstPlace x) := if_neg h

-- Otherwise it is unfolded down to the digits wherever it is compared.
attribute [irreducible] firstPlace

theorem ReadsBack.hit?_ne_none (hx : x.isFinite = true) (h : ReadsBack x d) :
    hit? x d.exponent ≠ none := by
  obtain ⟨hlow, hhigh⟩ := floorOn_spec x d.exponent
  have hexact := readsBack_exact hx
  have hvalue := value_exact x
  have hnear : ReadsBack x ⟨floorOn x d.exponent, d.exponent⟩ ∨
      ReadsBack x ⟨floorOn x d.exponent + 1, d.exponent⟩ := by
    rcases Nat.lt_or_ge (floorOn x d.exponent) d.digits with hlt | hge
    · refine .inr (hexact.of_between h ?_ (value_le_value rfl hlt))
      rw [hvalue]
      exact hhigh.le
    · refine .inl (h.of_between hexact (value_le_value rfl hge) ?_)
      rw [hvalue]
      exact hlow
  unfold hit?
  extract_lets num den below above
  have hbelow : below = ⟨floorOn x d.exponent, d.exponent⟩ := rfl
  have habove : above = ⟨floorOn x d.exponent + 1, d.exponent⟩ := rfl
  rw [← hbelow, ← habove] at hnear
  split
  · split <;> simp
  · next hnot => simp [hnear.resolve_left hnot]

theorem hit?_cases {s : Decimal} (h : hit? x p = some s) :
    s.exponent = p ∧
      (s.digits = Rounding.toEven (units x * 10 ^ (-p).toNat) (unitsPerOne * 10 ^ p.toNat) ∨
        s.digits = floorOn x p ∧ ¬ ReadsBack x ⟨floorOn x p + 1, p⟩ ∨
        s.digits = floorOn x p + 1 ∧ ¬ ReadsBack x ⟨floorOn x p, p⟩) := by
  unfold hit? at h
  dsimp only at h
  rw [floorOn]
  generalize units x * 10 ^ (-p).toNat = num at h ⊢
  generalize unitsPerOne * 10 ^ p.toNat = den at h ⊢
  split at h
  · split at h
    · obtain rfl := Option.some.inj h
      exact ⟨rfl, .inl rfl⟩
    · next habove =>
      obtain rfl := Option.some.inj h
      exact ⟨rfl, .inr (.inl ⟨rfl, habove⟩)⟩
  · next hbelow =>
    split at h
    · obtain rfl := Option.some.inj h
      exact ⟨rfl, .inr (.inr ⟨rfl, hbelow⟩)⟩
    · cases h

theorem firstHit_spec (x : Float) {fuel : Nat} {p : Int} (hp : p - fuel ≤ -finestPlace) :
    (firstHit x fuel p).exponent ≤ p ∧
      (∀ q, (firstHit x fuel p).exponent < q → q ≤ p → hit? x q = none) ∧
      (hit? x (firstHit x fuel p).exponent = some (firstHit x fuel p) ∨
        (firstHit x fuel p).value = magnitude x) := by
  induction fuel generalizing p with
  | zero =>
    refine ⟨le_rfl, fun q hlt hle => absurd hle (not_le.mpr hlt), .inr (value_finest x ?_)⟩
    rwa [Int.natCast_zero, sub_zero] at hp
  | succ fuel ih =>
    rw [firstHit]
    cases h : hit? x p with
    | some d =>
      obtain ⟨hd, -⟩ := hit?_cases h
      rw [Option.getD_some, hd]
      exact ⟨le_rfl, fun q hlt hle => absurd hle (not_le.mpr hlt), .inl h⟩
    | none =>
      obtain ⟨hle, hnone, hend⟩ := ih (p := p - 1) (by omega)
      rw [Option.getD_none]
      refine ⟨by omega, fun q hlt hq => ?_, hend⟩
      rcases eq_or_lt_of_le hq with rfl | hq
      · exact h
      · exact hnone q hlt (by omega)

theorem magnitude_of_units (h : units x = 0) : magnitude x = 0 := by
  rw [magnitude, h, Nat.cast_zero, zero_div]

theorem shortest_of_zero (h : units x = 0) : shortest x = ⟨0, 0⟩ := if_pos h

theorem shortest_spec (h : units x ≠ 0) :
    (shortest x).exponent ≤ firstPlace x ∧
      (∀ q, (shortest x).exponent < q → q ≤ firstPlace x → hit? x q = none) ∧
      (hit? x (shortest x).exponent = some (shortest x) ∨ (shortest x).value = magnitude x) := by
  rw [shortest_eq_firstHit h]
  exact firstHit_spec x (by omega)

theorem ReadsBack.exponent_le (hx : x.isFinite = true) (hne : units x ≠ 0) (h : ReadsBack x d)
    (hd : d.exponent ≤ firstPlace x) : d.exponent ≤ (shortest x).exponent := by
  obtain ⟨-, hnone, -⟩ := shortest_spec hne
  by_contra hlt
  exact h.hit?_ne_none hx (hnone d.exponent (not_le.mp hlt) hd)

theorem width_shortest_le_place (hx : x.isFinite = true) (h : units x ≠ 0) :
    ((shortest x).width : Int) ≤ firstPlace x - (shortest x).exponent + 1 := by
  obtain ⟨hplace, -, -⟩ := shortest_spec h
  obtain ⟨-, hhigh⟩ := firstPlace_spec h
  obtain ⟨hlow, -⟩ := floorOn_spec x (shortest x).exponent
  obtain ⟨n, hn⟩ : ∃ n : Nat, firstPlace x + 1 = n + (shortest x).exponent :=
    ⟨(firstPlace x + 1 - (shortest x).exponent).toNat, by omega⟩
  have hfloor : floorOn x (shortest x).exponent < 10 ^ n := by
    have hlt := hlow.trans_lt hhigh
    rw [hn, zpow_add₀ (by norm_num), zpow_natCast] at hlt
    exact_mod_cast lt_of_mul_lt_mul_right hlt (zpow_pos (by norm_num) _).le
  have hdigits : (shortest x).digits ≤ 10 ^ n := by
    rcases (shortest_readsBack hx).2 with hnear | hnear <;> omega
  have hwidth := Decimal.width_le (by omega) hdigits
  omega

namespace ReadsBack

theorem of_value_eq (h : ReadsBack x d) {d' : Decimal} (hv : d'.value = d.value) :
    ReadsBack x d' := h.of_between h hv.ge hv.le

theorem digits_ne_zero (h : ReadsBack x d) (hne : units x ≠ 0) : d.digits ≠ 0 := by
  intro hzero
  rw [ReadsBack, Decimal.num, hzero, Nat.zero_mul, nearestBits_zero d.den_pos] at h
  exact hne (units_eq_zero_iff.mpr h.symm)

theorem place_le_of_value_le (hx : x.isFinite = true) (hne : units x ≠ 0) (h : ReadsBack x d)
    (hd : d.value ≤ 10 ^ firstPlace x) : firstPlace x ≤ (shortest x).exponent := by
  obtain ⟨hlow, -⟩ := firstPlace_spec hne
  have hpower : ReadsBack x ⟨1, firstPlace x⟩ := by
    refine h.of_between (readsBack_exact hx) ?_ ?_
    · rwa [value_power]
    · rwa [value_power, value_exact]
  exact hpower.exponent_le hx hne le_rfl

theorem place_le_of_le_value (hx : x.isFinite = true) (hne : units x ≠ 0) (h : ReadsBack x d)
    (hd : 10 ^ (firstPlace x + 1) ≤ d.value) : firstPlace x ≤ (shortest x).exponent := by
  obtain ⟨-, hhigh⟩ := firstPlace_spec hne
  have hpower : ReadsBack x ⟨10, firstPlace x⟩ := by
    refine (readsBack_exact hx).of_between h ?_ ?_
    · rw [value_ten, value_exact]
      exact hhigh.le
    · rwa [value_ten]
  exact hpower.exponent_le hx hne le_rfl

theorem shortest_fewest (hx : x.isFinite = true) (h : ReadsBack x d) :
    (shortest x).width ≤ d.width := by
  by_cases hne : units x = 0
  · rw [shortest_of_zero hne]
    exact Nat.zero_le _
  · obtain ⟨core, zeros, hd⟩ := Decimal.Significant.exists_of_ne_zero (h.digits_ne_zero hne)
    have hvalue := Decimal.value_eq_core hd
    have hcore : ReadsBack x ⟨core, d.exponent + zeros⟩ := h.of_value_eq hvalue.symm
    have hone := Decimal.one_le_width (h.digits_ne_zero hne)
    have hwidth := width_shortest_le_place hx hne
    rw [Decimal.width_eq hd] at hone ⊢
    by_contra hlt
    have hten : (1 : ℚ) ≤ 10 := by norm_num
    have hplace : firstPlace x ≤ (shortest x).exponent := by
      rcases le_or_gt (d.exponent + zeros) (firstPlace x) with hle | hgt
      · have hgrid := hcore.exponent_le hx hne hle
        dsimp only at hgrid
        exact h.place_le_of_value_le hx hne
          (hd.value_lt.le.trans (zpow_le_zpow_right₀ hten (by omega)))
      · exact h.place_le_of_le_value hx hne
          ((zpow_le_zpow_right₀ hten (by omega)).trans hd.le_value)
    omega

end ReadsBack

theorem unitsOf_succ_lt (b : Nat) :
    unitsOf (b + 1) + 10 ^ 16 * unitsOf b < 10 ^ 16 * unitsOf (b + 1) := by
  obtain ⟨k, m, hkm, hm, rfl⟩ := exists_binade b
  have hnext : InBinade k (m + 1) := ⟨by omega, by obtain ⟨-, hnormal⟩ := hkm; omega⟩
  have hunits := unitsOf_binade hnext
  rw [← Nat.add_assoc] at hunits
  have hstep := Nat.two_pow_pos k
  rw [hunits, unitsOf_binade hkm]
  have hlt : (m + 1 + 10 ^ 16 * m) * 2 ^ k < 10 ^ 16 * (m + 1) * 2 ^ k :=
    Nat.mul_lt_mul_of_pos_right (by omega) hstep
  calc (m + 1) * 2 ^ k + 10 ^ 16 * (m * 2 ^ k)
      = (m + 1 + 10 ^ 16 * m) * 2 ^ k := by ring
    _ < 10 ^ 16 * (m + 1) * 2 ^ k := hlt
    _ = 10 ^ 16 * ((m + 1) * 2 ^ k) := Nat.mul_assoc ..

theorem between_of_near {num den b : Nat} (hd : 0 < den)
    (h : 2 * 10 ^ 16 * |(num : ℚ) - (unitsOf b * den : Nat)| ≤ (unitsOf b * den : Nat)) :
    Between num den b := by
  have hlow : 2 * 10 ^ 16 * (unitsOf b * den) ≤ 2 * 10 ^ 16 * num + unitsOf b * den := by
    have hle := neg_abs_le ((num : ℚ) - (unitsOf b * den : Nat))
    generalize unitsOf b * den = exact at h hle ⊢
    have hscaled : (2 * 10 ^ 16 * exact : ℚ) ≤ 2 * 10 ^ 16 * num + exact := by linarith
    exact_mod_cast hscaled
  have hhigh : 2 * 10 ^ 16 * num ≤ 2 * 10 ^ 16 * (unitsOf b * den) + unitsOf b * den := by
    have hle := le_abs_self ((num : ℚ) - (unitsOf b * den : Nat))
    generalize unitsOf b * den = exact at h hle ⊢
    have hscaled : (2 * 10 ^ 16 * num : ℚ) ≤ 2 * 10 ^ 16 * exact + exact := by linarith
    exact_mod_cast hscaled
  have hgap (a : Nat) : unitsOf (a + 1) * den + 10 ^ 16 * (unitsOf a * den) <
      10 ^ 16 * (unitsOf (a + 1) * den) := by
    rw [← Nat.mul_assoc, ← Nat.mul_assoc, ← Nat.add_mul]
    exact Nat.mul_lt_mul_of_pos_right (unitsOf_succ_lt a) hd
  have habove : 2 * num < (unitsOf b + unitsOf (b + 1)) * den := by
    have hnext := hgap b
    rw [Nat.add_mul]
    omega
  have hbelow : ∀ a, a + 1 = b → (unitsOf a + unitsOf b) * den < 2 * num := by
    rintro a rfl
    have hprev := hgap a
    rw [Nat.add_mul]
    omega
  exact ⟨habove.le, fun a ha => (hbelow a ha).le, fun ht => absurd ht habove.ne,
    fun a ha ht => absurd ht (hbelow a ha).ne⟩

theorem readsBack_of_near (hx : x.isFinite = true)
    (h : 2 * 10 ^ 16 * |d.value - magnitude x| ≤ magnitude x) : ReadsBack x d := by
  have hscale : (0 : ℚ) < (d.den * unitsPerOne : Nat) := by
    exact_mod_cast Nat.mul_pos d.den_pos unitsPerOne_pos
  have hmagnitude : magnitude x = (units x * d.den : Nat) / (d.den * unitsPerOne : Nat) := by
    have hden : (d.den : ℚ) ≠ 0 := by exact_mod_cast d.den_pos.ne'
    rw [magnitude, Nat.mul_comm, Nat.cast_mul, Nat.cast_mul, mul_div_mul_left _ _ hden]
  have hnear : 2 * 10 ^ 16 * |((d.num * unitsPerOne : Nat) : ℚ) - (units x * d.den : Nat)| ≤
      (units x * d.den : Nat) := by
    rw [Decimal.value_eq_div, abs_sub_magnitude _ d.den_pos, hmagnitude, ← mul_div_assoc,
      div_le_div_iff_of_pos_right hscale] at h
    exact h
  rw [units_eq] at hnear
  have hbetween := between_of_near d.den_pos hnear
  have hrounded := between_roundedWord (d.num * unitsPerOne) d.den_pos
  have hword := le_antisymm (hrounded.mono hbetween d.den_pos d.den_pos le_rfl)
    (hbetween.mono hrounded d.den_pos d.den_pos le_rfl)
  have htop := isFinite_iff_bits.mp hx
  rw [ReadsBack, nearestBits_eq_min, hword]
  omega

theorem exists_near_on_grid (x : Float) (k : Int) :
    ∃ d : Decimal, d.exponent = k ∧ 2 * |d.value - magnitude x| ≤ 10 ^ k := by
  have hstep : (0 : ℚ) < 10 ^ k := zpow_pos (by norm_num) _
  have hden : 0 < unitsPerOne * 10 ^ k.toNat :=
    Nat.mul_pos unitsPerOne_pos (Nat.pow_pos (by decide))
  have hscaled := magnitude_eq_scaled x k
  generalize unitsPerOne * 10 ^ k.toNat = den at hden hscaled
  generalize units x * 10 ^ (-k).toNat = num at hscaled
  have hclose := Rounding.abs_sub_toEven_le num hden
  refine ⟨⟨Rounding.toEven num den, k⟩, rfl, ?_⟩
  have hdistance : |Decimal.value ⟨Rounding.toEven num den, k⟩ - magnitude x| =
      |(num : ℚ) / den - Rounding.toEven num den| * 10 ^ k := by
    rw [hscaled, Decimal.value, ← sub_mul, abs_mul, abs_of_pos hstep, abs_sub_comm]
  have hle := mul_le_mul_of_nonneg_right hclose hstep.le
  linarith

theorem width_shortest_le (hx : x.isFinite = true) : (shortest x).width ≤ 17 := by
  by_cases hne : units x = 0
  · rw [shortest_of_zero hne]
    exact Nat.zero_le _
  · obtain ⟨hlow, -⟩ := firstPlace_spec hne
    obtain ⟨d, hd, hnear⟩ := exists_near_on_grid x (firstPlace x - 16)
    have hread : ReadsBack x d := by
      refine readsBack_of_near hx ?_
      calc 2 * 10 ^ 16 * |d.value - magnitude x|
          = 10 ^ 16 * (2 * |d.value - magnitude x|) := by ring
        _ ≤ 10 ^ 16 * 10 ^ (firstPlace x - 16) := mul_le_mul_of_nonneg_left hnear (by norm_num)
        _ = 10 ^ firstPlace x := by
          rw [← zpow_natCast, ← zpow_add₀ (by norm_num)]
          congr 1
          omega
        _ ≤ magnitude x := hlow
    have hgrid := hread.exponent_le hx hne (by omega)
    have hwidth := width_shortest_le_place hx hne
    omega

end Double
end FormulaTable
