import FormulaTable.Proofs.Decimal.Written
import FormulaTable.Proofs.Double.Choice
import FormulaTable.Proofs.Format.Figure

/-!
# The rounding of a shown number

A format rounds the shortest decimal of a double, times a hundred for a percentage, to its places
with halves away from zero. The text has a digit before the point, no zero in front of other ones,
and just as many digits after the point as the format has places.
-/

namespace FormulaTable
open Formula (Literal)

namespace Decimal

theorem countOf_eq_floor (places : Nat) (d : Decimal) :
    countOf places d = ⌊d.value * 10 ^ places + 1 / 2⌋₊ := by
  have hden : (d.den : ℚ) ≠ 0 := by exact_mod_cast d.den_pos.ne'
  rw [countOf, Rounding.halfUp, ← Nat.floor_div_eq_div (K := ℚ), value_eq_div]
  congr 1
  push_cast
  field_simp

end Decimal

/-- `v` is `q` rounded to some decimal places, and a half is rounded away from zero. -/
structure RoundedAway (places : Nat) (q v : ℚ) : Prop where
  grid : ∃ n : Int, v = n / 10 ^ places
  near : 2 * |v - q| ≤ (10 ^ places)⁻¹
  away : 2 * |v - q| = (10 ^ places)⁻¹ → |q| < |v|

open Decimal

theorem double_distance {scale : ℚ} (h : 0 < scale) (count q : ℚ) :
    2 * |count / scale - q| = 2 * |count - q * scale| / scale := by
  rw [div_sub' h.ne', abs_div, abs_of_pos h, mul_comm scale, mul_div_assoc]

theorem roundedAway_countOf (places : Nat) (d : Decimal) :
    RoundedAway places d.value (countOf places d / 10 ^ places) := by
  have hscale : (0 : ℚ) < 10 ^ places := pow_pos (by norm_num) _
  have hd := d.value_nonneg
  have hscaled : 0 ≤ d.value * 10 ^ places := mul_nonneg hd hscale.le
  have hle : (countOf places d : ℚ) ≤ d.value * 10 ^ places + 1 / 2 := by
    rw [countOf_eq_floor]
    exact Nat.floor_le (by linarith)
  have hlt : d.value * 10 ^ places + 1 / 2 < countOf places d + 1 := by
    rw [countOf_eq_floor]
    exact Nat.lt_floor_add_one _
  have hdistance := double_distance hscale (countOf places d) d.value
  generalize countOf places d = count at hle hlt hdistance ⊢
  refine ⟨⟨count, by rw [Int.cast_natCast]⟩, ?_, fun htie => ?_⟩
  · have hnear : |(count : ℚ) - d.value * 10 ^ places| ≤ 1 / 2 :=
      abs_le.mpr ⟨by linarith, by linarith⟩
    rw [hdistance, ← one_div]
    exact div_le_div_of_nonneg_right (by linarith) hscale.le
  · -- The half below the decimal is out of reach, so that the count is above it.
    have hhalf : 2 * |(count : ℚ) - d.value * 10 ^ places| = 1 := by
      rwa [hdistance, ← one_div, div_left_inj' hscale.ne'] at htie
    have habove : d.value * 10 ^ places < count := by
      by_contra hge
      rw [abs_of_nonpos (by linarith)] at hhalf
      linarith
    rw [abs_of_nonneg hd, abs_of_nonneg (div_nonneg (Nat.cast_nonneg _) hscale.le),
      lt_div_iff₀ hscale]
    exact habove

theorem RoundedAway.signedBy {places : Nat} {q v : ℚ} (h : RoundedAway places q v)
    (negative : Bool) :
    RoundedAway places (signedBy negative q) (signedBy negative v) := by
  cases negative with
  | false => exact h
  | true =>
    obtain ⟨⟨n, hn⟩, hnear, haway⟩ := h
    have hdistance : |-v - -q| = |v - q| := by rw [neg_sub_neg, abs_sub_comm]
    rw [FormulaTable.signedBy, if_pos rfl, FormulaTable.signedBy, if_pos rfl]
    refine ⟨⟨-n, ?_⟩, ?_, ?_⟩
    · rw [hn, Int.cast_neg, neg_div]
    · rwa [hdistance]
    · rwa [hdistance, abs_neg, abs_neg]

namespace NumberFormat
variable {f : NumberFormat} {l : Literal} {negative : Bool} {x : Float}

def plain (cs : List Char) : List Char :=
  (if cs.getLast? = some '%' then cs.dropLast else cs).filter (· ≠ ',')

theorem plain_shown : plain (f.shown negative l) = sign negative ++ l.text := by
  have hbody : '%' ∉ sign negative ++ f.front l ++ back l := by
    have hsign : '%' ∉ sign negative := by cases negative <;> decide
    have hfront : '%' ∉ f.front l := notMem_front (by decide) (by decide)
    have hback : '%' ∉ back l := notMem_back (by decide) (by decide)
    simp [hsign, hfront, hback]
  have hcut : (if (f.shown negative l).getLast? = some '%' then (f.shown negative l).dropLast
      else f.shown negative l) = sign negative ++ f.front l ++ back l := by
    unfold shown unit
    cases f.percent with
    | false =>
      simp only [Bool.false_eq_true, if_false, List.append_nil]
      exact if_neg fun h => hbody (List.mem_of_getLast? h)
    | true => simp
  have hfront : (f.front l).filter (· ≠ ',') = l.whole := by
    rw [← filter_front f l]
    refine List.filter_congr fun c hc => ?_
    rcases mem_front c hc with hdigit | rfl
    · simpa [hdigit] using Formula.ne_of_isDigit hdigit (by decide)
    · decide
  have hsign : (sign negative).filter (· ≠ ',') = sign negative := by cases negative <;> decide
  have hback : (back l).filter (· ≠ ',') = back l :=
    List.filter_eq_self.mpr fun c hc =>
      decide_eq_true fun h => notMem_back (by decide) (by decide) (h ▸ hc)
  rw [plain, hcut, List.filter_append, List.filter_append, hsign, hfront, hback, text_eq,
    List.append_assoc]

theorem denoted?_literal (negative : Bool) (l : Literal) :
    denoted? (sign negative ++ l.text) = some (signedBy negative l.decimal.value) := by
  rw [sign_append]
  exact denoted?_signed negative l.readUnsigned?_text

theorem value_shownDecimal (f : NumberFormat) (x : Float) :
    (f.shownDecimal x).value = (Double.shortest x).value * if f.percent then 100 else 1 := by
  unfold shownDecimal
  extract_lets d
  split
  · have hscale : (10 : ℚ) ^ (d.exponent + 2) = 10 ^ d.exponent * 100 := by
      rw [zpow_add₀ (by norm_num)]
      norm_num
    rw [Decimal.value, hscale, ← mul_assoc]
    rfl
  · exact (mul_one _).symm

theorem forShowing?_name (hf : f ≠ auto) : forShowing? f.name = some f := by
  cases f <;> first | exact absurd rfl hf | decide +kernel

theorem showDouble_eq (hx : x.isFinite = true) (f : NumberFormat) :
    f.showDouble x = .ok (String.ofList (f.shown (Double.isNegative x)
      (placedLiteral f.places (f.shownCount x)))) := by
  rw [showDouble, text?_eq hx]

theorem denoted?_shown (f : NumberFormat) (negative : Bool) (count : Nat) :
    denoted? (plain (f.shown negative (placedLiteral f.places count))) =
      some (signedBy negative (count / 10 ^ f.places)) := by
  rw [plain_shown, denoted?_literal, value_placedLiteral]

end NumberFormat
end FormulaTable
