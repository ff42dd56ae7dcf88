import FormulaTable.Proofs.Format.MinusZero
import FormulaTable.Proofs.Text.Digit

/-!
# Reading a kept text

A text that keeps every digit is read as the number that was written. It is read as the same double,
only that a negative zero is written without its sign.
-/

namespace FormulaTable
open Decimal (intText placedLiteral)

theorem Decimal.isBlank_of_isNumeric {c : Char} (h : IsNumeric c) : Text.isBlank c = false := by
  rcases h with hdigit | hother
  · obtain ⟨v, hv⟩ := Option.isSome_iff_exists.mp hdigit
    exact Text.isBlank_of_digitValue? hv
  · simp only [List.mem_cons, List.not_mem_nil, or_false] at hother
    rcases hother with rfl | rfl | rfl | rfl | rfl | rfl <;> decide

theorem Decimal.trimList_of_read? {s : List Char} {r : Bool × Decimal} (h : read? s = some r) :
    Text.trimList s = s :=
  Text.trimBy_of_forall_not fun c hc => isBlank_of_isNumeric (isNumeric_of_read? h c hc)

theorem Cell.toNumber_of_read? {s : List Char} {y : Float} (h : Double.read? s = some y)
    (hy : y.isFinite = true) : (Cell.text (String.ofList s)).toNumber = .ok y := by
  obtain ⟨r, hr, -⟩ := Option.map_eq_some_iff.mp h
  change Except.ok (numberOfText _) = _
  rw [numberOfText, String.toList_ofList, Decimal.trimList_of_read? hr, h]
  exact congrArg Except.ok (if_pos hy)

namespace Double
variable {x y : Float}

theorem magnitude_nonneg (x : Float) : 0 ≤ magnitude x :=
  div_nonneg (Nat.cast_nonneg _) (Nat.cast_nonneg _)

theorem word_eq_of_magnitude_eq (h : magnitude x = magnitude y) :
    bits x % 2 ^ 63 = bits y % 2 ^ 63 := by
  rcases Nat.lt_trichotomy (bits x % 2 ^ 63) (bits y % 2 ^ 63) with hlt | heq | hgt
  · exact absurd h (magnitude_lt hlt).ne
  · exact heq
  · exact absurd h (magnitude_lt hgt).ne'

theorem eq_of_value_eq (hx : x.isFinite = true) (hy : y.isFinite = true)
    (h : value x = value y) (hne : value x ≠ 0) : x = y := by
  obtain ⟨hmagnitude, hsign⟩ := signedBy_inj (magnitude_nonneg x) (magnitude_nonneg y) h
  have hpos : magnitude x ≠ 0 := by rwa [← abs_value, Ne, abs_eq_zero]
  rw [← ofMagnitude_bits hx, ← ofMagnitude_bits hy, hsign hpos, word_eq_of_magnitude_eq hmagnitude]

theorem zero_of_value_eq_zero (hx : x.isFinite = true) (h : value x = 0) : x = 0 ∨ x = -0 := by
  have hmagnitude : magnitude x = magnitude 0 := by
    rw [← abs_value, h, abs_zero, magnitude_of_units (by decide)]
  have hword := word_eq_of_magnitude_eq hmagnitude
  rw [← ofMagnitude_bits hx, hword]
  cases isNegative x
  · exact .inl (by decide)
  · exact .inr (by decide)

theorem beq_of_value_eq (hx : x.isFinite = true) (hy : y.isFinite = true)
    (h : value x = value y) : (x == y) = true := by
  have hnan {z : Float} (hz : z.isFinite = true) : z ≠ Float.nan := by
    rintro rfl
    exact absurd hz (by decide)
  refine Float.beq_iff_ne_nan_and_eq.mpr ⟨hnan hx, hnan hy, ?_⟩
  by_cases hzero : value x = 0
  · rcases zero_of_value_eq_zero hx hzero with rfl | rfl <;>
      rcases zero_of_value_eq_zero hy (h ▸ hzero) with rfl | rfl <;> simp
  · exact .inl (eq_of_value_eq hx hy h hzero)

theorem read?_intText (hx : isIntegral x = true) (hne : wholePart x ≠ 0) :
    read? (intText (toInt x)) = some x := by
  have hfinite : x.isFinite = true := (isIntegral_iff.mp hx).1
  have hvalue : (placedLiteral 0 (wholePart x)).decimal.value = magnitude x := by
    rw [Decimal.value_placedLiteral, pow_zero, div_one, magnitude_of_isIntegral hx]
  rw [intText_eq, natAbs_toInt, decide_toInt_neg hne, NumberFormat.read?_signed,
    ofDecimal_of_readsBack hfinite (readsBack_of_value_eq hfinite hvalue)]

theorem exists_read?_keptText (hx : x.isFinite = true) :
    ∃ y, read? (keptText x) = some y ∧ y.isFinite = true ∧ value y = value x := by
  by_cases hwhole : isIntegral x = true ∧ wholePart x < powerThreshold
  · have hkept : keptText x = intText (toInt x) := by simp [keptText, hwhole]
    rw [hkept]
    by_cases hzero : wholePart x = 0
    · have htoInt : toInt x = 0 := by rw [← Int.natAbs_eq_zero, natAbs_toInt, hzero]
      refine ⟨0, by rw [htoInt]; decide +kernel, by decide, ?_⟩
      rw [value_of_isIntegral hwhole.1, htoInt, value_of_isIntegral (by decide +kernel)]
      decide +kernel
    · exact ⟨x, read?_intText hwhole.1 hzero, hx, rfl⟩
  · have hkept : keptText x = naturalText x := by
      simp only [keptText, Bool.and_eq_true, decide_eq_true_eq, if_neg hwhole]
    exact ⟨x, by rw [hkept, read?_naturalText hx], hx, rfl⟩

end Double

theorem Cell.exists_toNumber_toKeptText {x : Float} (hx : x.isFinite = true) :
    ∃ s y, (Cell.number x).toKeptText = .ok s ∧ (Cell.text s).toNumber = .ok y ∧
      y.isFinite = true ∧ Double.value y = Double.value x := by
  obtain ⟨y, hread, hy, hvalue⟩ := Double.exists_read?_keptText hx
  exact ⟨_, y, rfl, Cell.toNumber_of_read? hread hy, hy, hvalue⟩

end FormulaTable
