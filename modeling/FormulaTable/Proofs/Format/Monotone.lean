import FormulaTable.Proofs.Double.Canonical
import FormulaTable.Proofs.Format.Agreement

/-!
# The order of shown numbers

The shortest decimals of doubles are in the order of the doubles, and rounding keeps that order. A
canonical text changes to the shortest decimal at `10 ^ 21`, which is one itself, and no text below
denotes more.
-/

namespace FormulaTable
open Decimal

theorem Rounding.toEven_mono {num num' den : Nat} (hd : 0 < den) (h : num ≤ num') :
    toEven num den ≤ toEven num' den := by
  by_contra hlt
  obtain ⟨-, hdown⟩ := toEven_within_half num hd
  obtain ⟨hup, -⟩ := toEven_within_half num' hd
  have hstep : (toEven num' den + 1) * den ≤ toEven num den * den :=
    Nat.mul_le_mul_right den (by omega)
  rw [Nat.mul_assoc] at hdown
  have hodd : (2 * toEven num' den + 1) * den = 2 * (toEven num' den * den) + den := by ring
  rw [Nat.succ_mul] at hstep
  rw [hodd] at hup
  -- Only at the middle of both roundings is there room for the two, and there they are one.
  obtain rfl : num = num' := by omega
  exact hlt le_rfl

namespace Double
variable {x y : Float}

section Same
variable (h : bits x % 2 ^ 63 = bits y % 2 ^ 63)
include h

theorem units_congr : units x = units y := by rw [units_eq, units_eq, h]

theorem hit?_congr (p : Int) : hit? x p = hit? y p := by
  have hread (d : Decimal) : ReadsBack x d ↔ ReadsBack y d := by rw [ReadsBack, ReadsBack, h]
  simp only [hit?, units_congr h, hread]

theorem firstHit_congr (fuel : Nat) (p : Int) : firstHit x fuel p = firstHit y fuel p := by
  induction fuel generalizing p with
  | zero => rw [firstHit, firstHit, units_congr h]
  | succ fuel ih => rw [firstHit, firstHit, hit?_congr h, ih]

theorem shortest_congr : shortest x = shortest y := by
  simp only [shortest, units_congr h, firstHit_congr h]

end Same

theorem shortest_mono (hx : x.isFinite = true) (hy : y.isFinite = true)
    (h : bits x % 2 ^ 63 ≤ bits y % 2 ^ 63) : (shortest x).value ≤ (shortest y).value := by
  rcases Nat.lt_or_eq_of_le h with hlt | heq
  · exact ((shortest_readsBack hx).1.value_lt_of_lt (shortest_readsBack hy).1 hlt).le
  · rw [shortest_congr heq]

theorem shortest_threshold : shortest threshold = ⟨1, 21⟩ := by decide +kernel

theorem threshold_le_shortest (hx : x.isFinite = true) (h : powerThreshold ≤ wholePart x) :
    (powerThreshold : ℚ) ≤ (shortest x).value := by
  have hunits : units threshold ≤ units x := by
    rw [units_threshold]
    exact (Nat.le_div_iff_mul_le unitsPerOne_pos).mp h
  have hle := shortest_mono isFinite_threshold hx (units_le_units_iff.mp hunits)
  have hvalue : (shortest threshold).value = powerThreshold := by
    rw [shortest_threshold, value_power, powerThreshold]
    norm_num
  rwa [hvalue] at hle

theorem countOf_le_threshold (h : wholePart x < powerThreshold) :
    (countOf 6 x : ℚ) / 10 ^ 6 ≤ powerThreshold := by
  have hunits : units x ≤ powerThreshold * unitsPerOne :=
    ((Nat.div_lt_iff_lt_mul unitsPerOne_pos).mp h).le
  have hcount : countOf 6 x ≤ powerThreshold * 10 ^ 6 := by
    refine Rounding.toEven_le unitsPerOne_pos ?_
    rw [Nat.mul_right_comm]
    exact Nat.mul_le_mul_right _ hunits
  rw [div_le_iff₀ (by norm_num)]
  exact_mod_cast hcount

theorem written_mono (hx : x.isFinite = true) (hy : y.isFinite = true)
    (h : bits x % 2 ^ 63 ≤ bits y % 2 ^ 63) : written x ≤ written y := by
  have hunits := units_le_units_iff.mpr h
  have hwhole : wholePart x ≤ wholePart y := Nat.div_le_div_right hunits
  unfold written
  by_cases hlow : wholePart y < powerThreshold
  · have hcount : countOf 6 x ≤ countOf 6 y :=
      Rounding.toEven_mono unitsPerOne_pos (Nat.mul_le_mul_right _ hunits)
    rw [if_pos hlow, if_pos (by omega)]
    exact div_le_div_of_nonneg_right (by exact_mod_cast hcount) (by norm_num)
  · rw [if_neg hlow]
    by_cases hlow' : wholePart x < powerThreshold
    · rw [if_pos hlow']
      exact (countOf_le_threshold hlow').trans (threshold_le_shortest hy (Nat.not_lt.mp hlow))
    · rw [if_neg hlow']
      exact shortest_mono hx hy h

theorem written_of_zero (h : units x = 0) : written x = 0 := by
  have hwhole : wholePart x = 0 := by rw [wholePart, h, Nat.zero_div]
  have hcount : countOf 6 x = 0 := by
    have hzero := Rounding.toEven_mul_right 0 unitsPerOne_pos
    rw [Nat.zero_mul] at hzero
    rw [countOf, h, Nat.zero_mul, hzero]
  rw [written, hwhole, if_pos (by decide), hcount, Nat.cast_zero, zero_div]

end Double

namespace NumberFormat
variable {f : NumberFormat} {x y : Float}

theorem shownCount_mono (hx : x.isFinite = true) (hy : y.isFinite = true)
    (h : Double.bits x % 2 ^ 63 ≤ Double.bits y % 2 ^ 63) (f : NumberFormat) :
    f.shownCount x ≤ f.shownCount y := by
  have hscale : (0 : ℚ) ≤ if f.percent then 100 else 1 := by split <;> norm_num
  have hvalue : (f.shownDecimal x).value ≤ (f.shownDecimal y).value := by
    rw [value_shownDecimal, value_shownDecimal]
    exact mul_le_mul_of_nonneg_right (Double.shortest_mono hx hy h) hscale
  have hplaces : (0 : ℚ) ≤ 10 ^ f.places := pow_nonneg (by norm_num) _
  have hscaled := mul_le_mul_of_nonneg_right hvalue hplaces
  rw [shownCount_eq, shownCount_eq, countOf_eq_floor, countOf_eq_floor]
  exact Nat.floor_le_floor (by linarith)

theorem shownCount_of_zero (h : Double.units x = 0) (f : NumberFormat) : f.shownCount x = 0 := by
  rw [shownCount_eq, countOf_eq_floor, value_shownDecimal, Double.shortest_of_zero h,
    value_zero, zero_mul, zero_mul]
  norm_num

theorem shows_mono (hx : x.isFinite = true) (hy : y.isFinite = true) (h : x ≤ y)
    (f : NumberFormat) : ∃ a b, Shows f x a ∧ Shows f y b ∧ a ≤ b := by
  refine ⟨_, _, shows_count hx f, shows_count hy f, ?_⟩
  refine Double.signedBy_le_of_le (s := fun z => f.shownCount z / 10 ^ f.places) ?_ ?_ hx hy h
  · intro x y hx hy hword
    have hcount := shownCount_mono hx hy hword f
    exact div_le_div_of_nonneg_right (by exact_mod_cast hcount) (by positivity)
  · intro x hzero
    rw [shownCount_of_zero hzero, Nat.cast_zero, zero_div]

end NumberFormat

def Cell.Writes (x : Float) (v : ℚ) : Prop :=
  ∃ s, (Cell.number x).toText = .ok s ∧ denoted? s.toList = some v

open Cell (Writes)
open NumberFormat (Shows)

theorem Cell.writes_mono {x y : Float} (hx : x.isFinite = true) (hy : y.isFinite = true)
    (h : x ≤ y) : ∃ a b, Writes x a ∧ Writes y b ∧ a ≤ b := by
  have hwrites {z : Float} (hz : z.isFinite = true) :
      Writes z (signedBy (Double.isNegative z) (Double.written z)) :=
    ⟨_, rfl, by rw [String.toList_ofList, Double.denoted?_canonicalText hz]⟩
  refine ⟨_, _, hwrites hx, hwrites hy, ?_⟩
  exact Double.signedBy_le_of_le (fun _ _ => Double.written_mono) (fun _ => Double.written_of_zero)
    hx hy h

/-- Doubles in order are shown in order, by every format and in the text of a cell. -/
theorem shown_in_order {x y : Float} (hx : x.isFinite = true) (hy : y.isFinite = true)
    (h : x ≤ y) :
    (∀ f ≠ NumberFormat.auto, ∃ a b, Shows f x a ∧ Shows f y b ∧ a ≤ b) ∧
      ∃ a b, Writes x a ∧ Writes y b ∧ a ≤ b :=
  ⟨fun f _ => NumberFormat.shows_mono hx hy h f, Cell.writes_mono hx hy h⟩

theorem shown_in_order_seam :
    (Cell.number 999999999999999868928).toText = .ok "999999999999999868928" ∧
      (Cell.number 1e21).toText = .ok "1e+21" ∧
      (∃ a b, Shows .fixed2 999999999999999868928 a ∧ Shows .fixed2 1e21 b ∧ a ≤ b) ∧
      ∃ a b, Writes 999999999999999868928 a ∧ Writes 1e21 b ∧ a ≤ b := by
  obtain ⟨hshown, hwritten⟩ := @shown_in_order 999999999999999868928 1e21 (by decide +kernel)
    (by decide +kernel) (by decide +kernel)
  exact ⟨by decide +kernel, by decide +kernel, hshown .fixed2 (by decide), hwritten⟩

end FormulaTable
