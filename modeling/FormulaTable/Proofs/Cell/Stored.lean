import FormulaTable.Proofs.Double.Kept
import FormulaTable.Proofs.Formula.LoneToken

/-!
# Whole numbers as they are stored

A number that is whole may be stored as a whole number or as a double. If it is both, it is the
double nearest to itself, and all ways of writing it agree. A whole number without a nearest finite
double has no text at all.
-/

namespace FormulaTable

namespace Double
open Decimal (intText)
variable {n : Int} {x : Float}

theorem ofInt?_eq_none_iff : ofInt? n = none ↔ 2 ^ 1024 - 2 ^ 970 ≤ n.natAbs := by
  have hle := nearestBits_le n.natAbs 1
  have hlt := nearestBits_lt_infinity_iff n.natAbs Nat.one_pos
  have hbound (m k : Nat) (h : m ≤ k) : (2 : ℚ) ^ k - 2 ^ m = (2 ^ k - 2 ^ m : Nat) := by
    rw [Nat.cast_sub (Nat.pow_le_pow_right Nat.two_pos h), Nat.cast_pow, Nat.cast_pow,
      Nat.cast_ofNat]
  rw [Nat.cast_one, div_one, hbound 970 1024 (by decide), Nat.cast_lt] at hlt
  have hnone : ofInt? n = none ↔ nearestBits n.natAbs 1 = infinityBits := by
    unfold ofInt?
    dsimp only
    split
    · next hinfinite => exact iff_of_true rfl hinfinite
    · next hfinite => exact iff_of_false (Option.some_ne_none _) hfinite
  rw [hnone, ← Nat.not_lt, ← hlt]
  omega

theorem ofInt?_of_value_eq (hx : x.isFinite = true) (h : value x = n) (hne : n ≠ 0) :
    ofInt? n = some x := by
  have hint := isIntegral_of_value_eq hx h
  obtain rfl := toInt_of_value_eq hx h
  have hwhole : wholePart x ≠ 0 := by rwa [← natAbs_toInt, Int.natAbs_ne_zero]
  have hexact : (toInt x).natAbs * unitsPerOne = units x * 1 := by
    rw [natAbs_toInt, Nat.mul_one, units_of_isIntegral hint]
  have hbits := nearestBits_of_exact hx Nat.one_pos hexact
  have hfinite : bits x % 2 ^ 63 ≠ infinityBits := (isFinite_iff_bits.mp hx).ne
  simp only [ofInt?, hbits, if_neg hfinite, decide_toInt_neg hwhole, ofMagnitude_bits hx]

end Double

namespace Cell
open Double (canonicalText isIntegral keptText naturalText powerThreshold value)
variable {n : Int} {x : Float}

theorem wholeTextBy_eq_error_iff {write : Float → List Char} :
    wholeTextBy write n = .error .beyondDoubles ↔ 2 ^ 1024 - 2 ^ 970 ≤ n.natAbs := by
  have hlarge : powerThreshold ≤ 2 ^ 1024 - 2 ^ 970 := by decide +kernel
  rw [← Double.ofInt?_eq_none_iff]
  unfold wholeTextBy
  split
  · next hsmall =>
    refine iff_of_false (fun h => by cases h) fun hnone => ?_
    have hbeyond := Double.ofInt?_eq_none_iff.mp hnone
    omega
  · cases Double.ofInt? n <;> simp

theorem wholeTextBy_of_value_eq (hx : x.isFinite = true) (h : value x = n) :
    wholeTextBy canonicalText n = .ok (String.ofList (canonicalText x)) := by
  have hint := Double.isIntegral_of_value_eq hx h
  obtain rfl := Double.toInt_of_value_eq hx h
  unfold wholeTextBy
  rw [Double.natAbs_toInt]
  split
  · next hsmall => rw [canonicalText, if_pos hint, if_neg (Nat.not_le.mpr hsmall)]
  · next hlarge =>
    have hne : Double.toInt x ≠ 0 := by
      rw [Ne, ← Int.natAbs_eq_zero, Double.natAbs_toInt]
      rintro hzero
      exact hlarge (by rw [hzero]; decide)
    rw [Double.ofInt?_of_value_eq hx h hne]

/-- A whole number and a finite double of the same value have one text, whether they are cells in a
formula or shown as they are, or the double is a result of one, and the text is read as that value.
The nearest double of a whole number is infinite from halfway beyond the greatest double on, and
just these whole numbers have no text, in either way. -/
theorem toText_whole_eq_number (n : Int) :
    (∀ x : Float, x.isFinite = true → value x = n →
      ∃ s, (whole n).toText = .ok s ∧ (number x).toText = .ok s ∧
        (whole n).toKeptText = .ok s ∧ (number x).toKeptText = .ok s ∧
        (Formula.Operand.number x).toText = .ok s ∧
        ∃ y, (text s).toNumber = .ok y ∧ y.isFinite = true ∧ value y = n) ∧
    ((whole n).toText = .error .beyondDoubles ↔ 2 ^ 1024 - 2 ^ 970 ≤ n.natAbs) ∧
    ((whole n).toKeptText = .error .beyondDoubles ↔ 2 ^ 1024 - 2 ^ 970 ≤ n.natAbs) := by
  refine ⟨fun x hx h => ?_, by rw [toText, wholeTextBy_eq_error_iff],
    by rw [toKeptText, wholeTextBy_eq_error_iff]⟩
  have hwhole := wholeTextBy_of_value_eq hx h
  have hkept : keptText x = canonicalText x :=
    Double.keptText_of_isIntegral (Double.isIntegral_of_value_eq hx h)
  obtain ⟨s, y, hs, hread, hy, hvalue⟩ := exists_toNumber_toKeptText hx
  obtain rfl : String.ofList (canonicalText x) = s := by
    rw [← hkept]
    exact Except.ok.inj hs
  exact ⟨_, hwhole, rfl, (wholeTextBy_natural n).trans hwhole, hs, rfl, y, hread, hy,
    hvalue.trans h⟩

theorem toText_whole_eq_number_seam :
    (Double.threshold.isFinite = true ∧ value Double.threshold = (10 ^ 21 : Int) ∧
      (whole (10 ^ 21)).toText = .ok "1e+21" ∧ (number Double.threshold).toText = .ok "1e+21" ∧
      (whole (10 ^ 21)).toKeptText = .ok "1e+21") ∧
    (Float.isFinite (-0) = true ∧ value (-0) = (0 : Int) ∧ (whole 0).toText = .ok "0" ∧
      (number (-0)).toText = .ok "0" ∧ (number (-0)).toKeptText = .ok "0") ∧
    (whole (2 ^ 1024)).toText = .error .beyondDoubles := by
  have hlarge : Double.threshold.isFinite = true := Double.isFinite_threshold
  have hlargeValue : value Double.threshold = (10 ^ 21 : Int) := by
    rw [Double.value_of_isIntegral (by decide +kernel)]
    decide +kernel
  have hlargeText : (whole (10 ^ 21)).toText = .ok "1e+21" := by decide +kernel
  have hzero : Float.isFinite (-0) = true := by decide
  have hzeroValue : value (-0) = (0 : Int) := by
    rw [Double.value_of_isIntegral (by decide +kernel)]
    decide +kernel
  have hzeroText : (whole 0).toText = .ok "0" := by decide +kernel
  obtain ⟨-, hbeyond, -⟩ := toText_whole_eq_number (2 ^ 1024)
  obtain ⟨s, hs, hnumber, hkept, -⟩ :=
    (toText_whole_eq_number (10 ^ 21)).1 _ hlarge hlargeValue
  obtain ⟨s', hs', hnumber', -, hkept', -⟩ := (toText_whole_eq_number 0).1 _ hzero hzeroValue
  obtain rfl := Except.ok.inj (hlargeText.symm.trans hs)
  obtain rfl := Except.ok.inj (hzeroText.symm.trans hs')
  exact ⟨⟨hlarge, hlargeValue, hlargeText, hnumber, hkept⟩,
    ⟨hzero, hzeroValue, hzeroText, hnumber', hkept'⟩, hbeyond.mpr (by decide +kernel)⟩

end Cell
end FormulaTable
