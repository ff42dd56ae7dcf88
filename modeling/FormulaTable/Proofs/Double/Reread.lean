import FormulaTable.Proofs.Double.Shape

/-!
# Reading a canonical text again

A text with some places is read as the double nearest to the number that it denotes. That double is
no farther from the number than the one that was written, so it is rounded to the same places, and
its text is the same again.
-/

namespace FormulaTable
open Formula (Literal)
open Decimal (numeral placedLiteral)

theorem Rounding.toEven_eq_of_near {num den n : Nat} (h : 0 < den)
    (hnear : 2 * |(num : ℚ) / den - n| ≤ 1) (heven : 2 * |(num : ℚ) / den - n| = 1 → 2 ∣ n) :
    toEven num den = n := by
  have hclose := abs_sub_toEven_le num h
  have heven' := @even_of_half num den h
  generalize (num : ℚ) / den = q at *
  generalize toEven num den = m at *
  have htriangle : |(m : ℚ) - n| ≤ |q - m| + |q - n| := by
    rw [abs_sub_comm q]
    exact abs_sub_le _ _ _
  by_contra hne
  have hapart : (1 : ℚ) ≤ |(m : ℚ) - n| := by
    have hapart : (1 : Int) ≤ |(m : Int) - n| := Int.one_le_abs (by omega)
    exact_mod_cast hapart
  -- Two neighbours are both half a step away, and one of them is odd.
  have hn : 2 ∣ n := heven (by linarith)
  have hm : 2 ∣ m := heven' (by linarith)
  obtain ⟨hlow, hhigh⟩ := abs_le.mp (htriangle.trans (by linarith : |q - m| + |q - n| ≤ 1))
  have hle : (n : ℚ) ≤ m + 1 := by linarith
  have hge : (m : ℚ) ≤ n + 1 := by linarith
  have hle : n ≤ m + 1 := by exact_mod_cast hle
  have hge : m ≤ n + 1 := by exact_mod_cast hge
  omega

namespace Double
open Float.Model (Format)
open Float.Model.UnpackedFloat
variable {x y : Float}

theorem countOf_eq_of_roundedEven {places n : Nat}
    (h : RoundedEven places (magnitude x) (n / 10 ^ places)) : countOf places x = n := by
  have hscale : (0 : ℚ) < 10 ^ places := pow_pos (by norm_num) _
  obtain ⟨-, hnear, heven⟩ := h
  have heven := heven n (by rw [Int.cast_natCast])
  rw [double_distance hscale, ← one_div] at hnear heven
  rw [div_le_div_iff_of_pos_right hscale] at hnear
  rw [div_left_inj' hscale.ne'] at heven
  refine Rounding.toEven_eq_of_near unitsPerOne_pos ?_ ?_
  · rwa [units_mul_div, abs_sub_comm]
  · rw [units_mul_div, abs_sub_comm]
    exact_mod_cast heven

theorem Rounds.countOf_eq {places : Nat} (h : Rounds (countOf places x / 10 ^ places) y)
    (hx : x.isFinite = true) (hy : y.isFinite = true) : countOf places y = countOf places x := by
  obtain ⟨hgrid, hnear, heven⟩ := roundedEven_countOf places x
  have hcloser := h.nearest hy x hx
  refine countOf_eq_of_roundedEven ⟨hgrid, ?_, fun n hn htie => heven n hn ?_⟩ <;> linarith

theorem countOf_lt_threshold (hx : x.isFinite = true) (h : wholePart x < powerThreshold) :
    countOf 6 x < powerThreshold * 10 ^ 6 := by
  cases hint : isIntegral x with
  | true =>
    rw [countOf_of_isIntegral hint]
    exact Nat.mul_lt_mul_of_pos_right h (by decide)
  | false =>
    -- A fraction is far below the threshold.
    have hsmall : wholePart x < 2 ^ 53 := by
      by_contra hlarge
      rw [isIntegral_of_le_wholePart hx (Nat.not_lt.mp hlarge)] at hint
      cases hint
    have hunits : units x ≤ 2 ^ 53 * unitsPerOne :=
      ((Nat.div_lt_iff_lt_mul unitsPerOne_pos).mp hsmall).le
    have hcount : countOf 6 x ≤ 2 ^ 53 * 10 ^ 6 := by
      refine Rounding.toEven_le unitsPerOne_pos ?_
      rw [Nat.mul_right_comm]
      exact Nat.mul_le_mul_right _ hunits
    exact hcount.trans_lt (by decide)

theorem threshold_le_countOf (h : powerThreshold ≤ wholePart x) :
    powerThreshold * 10 ^ 6 ≤ countOf 6 x := by
  have hunits := (Nat.le_div_iff_mul_le unitsPerOne_pos).mp h
  refine Rounding.le_toEven unitsPerOne_pos ?_
  rw [Nat.mul_right_comm]
  exact Nat.mul_le_mul_right _ hunits

theorem text_trimmedLiteral_whole (n : Nat) :
    (trimmedLiteral 6 (n * 10 ^ 6)).text = numeral n := by
  have hdiv : n * 10 ^ 6 / 10 ^ 6 = n := Nat.mul_div_cancel n (by decide)
  have hplaces : (placedLiteral 6 (n * 10 ^ 6)).fraction? = some "000000".toList := by
    change some (Decimal.padLeft 6 '0' (numeral (n * 10 ^ 6 % 10 ^ 6))) = _
    rw [Nat.mul_mod_left]
    decide
  rw [trimmedLiteral, text_withoutZeros _ hplaces, if_pos (by decide), List.append_nil]
  exact congrArg numeral hdiv

theorem canonicalText_eq (hx : x.isFinite = true) (h : wholePart x < powerThreshold) :
    canonicalText x =
      NumberFormat.sign (isNegative x && (!isIntegral x || wholePart x != 0)) ++
        (trimmedLiteral 6 (countOf 6 x)).text := by
  cases hint : isIntegral x with
  | false => simpa using canonicalText_of_not_isIntegral hx hint
  | true =>
    have hsign : decide (toInt x < 0) = (isNegative x && wholePart x != 0) := by
      by_cases hzero : wholePart x = 0
      · simp [toInt, hzero]
      · simp [toInt_neg_iff hzero, hzero]
    rw [canonicalText, if_pos hint, if_neg (Nat.not_le.mpr h), countOf_of_isIntegral hint,
      text_trimmedLiteral_whole, intText_eq, hsign, natAbs_toInt, Decimal.text_placedLiteral]
    simp [Decimal.placedText]

theorem canonicalText_of_countOf_ne_zero (hx : x.isFinite = true) (h : wholePart x < powerThreshold)
    (hc : countOf 6 x ≠ 0) :
    canonicalText x =
      NumberFormat.sign (isNegative x) ++ (trimmedLiteral 6 (countOf 6 x)).text := by
  have hsign : (!isIntegral x || wholePart x != 0) = true := by
    cases hint : isIntegral x with
    | false => rfl
    | true =>
      rw [countOf_of_isIntegral hint] at hc
      simpa using left_ne_zero_of_mul hc
  rw [canonicalText_eq hx h, hsign, Bool.and_true]

theorem text_trimmedLiteral_zero : (trimmedLiteral 6 0).text = ['0'] := by decide

theorem canonicalText_of_large (hx : x.isFinite = true) (h : powerThreshold ≤ wholePart x) :
    canonicalText x = naturalText x := by
  have hint := isIntegral_of_le_wholePart hx (le_trans (by decide) h)
  rw [canonicalText, if_pos hint, if_pos h]

theorem canonicalText_of_zero (h : units x = 0) (hx : x.isFinite = true) :
    canonicalText x = ['0'] := by
  have hwhole : wholePart x = 0 := by rw [wholePart, h, Nat.zero_div]
  have hint : isIntegral x = true := by simp [isIntegral, hx, h]
  rw [canonicalText, if_pos hint, hwhole, if_neg (by decide), toInt, hwhole]
  cases isNegative x <;> rfl

theorem le_wholePart_threshold : powerThreshold ≤ wholePart threshold := by
  rw [wholePart, units_threshold, Nat.mul_div_cancel _ unitsPerOne_pos]

theorem reread_of_countOf_ne_zero (hx : x.isFinite = true) (h : wholePart x < powerThreshold)
    (hc : countOf 6 x ≠ 0) :
    ∃ y, read? (canonicalText x) = some y ∧ y.isFinite = true ∧
      canonicalText y = canonicalText x := by
  have hcanonical := canonicalText_of_countOf_ne_zero hx h hc
  have hread := NumberFormat.read?_signed (isNegative x) (trimmedLiteral 6 (countOf 6 x))
  have hrounds := rounds_ofDecimal (isNegative x) (trimmedLiteral 6 (countOf 6 x)).decimal
  have hsign := isNegative_ofDecimal (isNegative x) (trimmedLiteral 6 (countOf 6 x)).decimal
  rw [← hcanonical] at hread
  generalize ofDecimal (isNegative x) (trimmedLiteral 6 (countOf 6 x)).decimal = y
    at hread hrounds hsign
  rw [value_trimmedLiteral] at hrounds
  have hfinite : y.isFinite = true := by
    have htop := (shortest_readsBack isFinite_threshold).1.value_lt isFinite_threshold
    have hle := threshold_le_shortest isFinite_threshold le_wholePart_threshold
    exact hrounds.finite.mpr ((countOf_le_threshold h).trans_lt (hle.trans_lt htop))
  have hcount := hrounds.countOf_eq hx hfinite
  have hsmall : wholePart y < powerThreshold := by
    by_contra hlarge
    have hle := threshold_le_countOf (Nat.not_lt.mp hlarge)
    have hlt := countOf_lt_threshold hx h
    omega
  have hne : countOf 6 y ≠ 0 := by rwa [hcount]
  refine ⟨y, hread, hfinite, ?_⟩
  rw [hcanonical, canonicalText_of_countOf_ne_zero hfinite hsmall hne, hsign, hcount]

theorem exists_reread (hx : x.isFinite = true) (h : canonicalText x ≠ ['-', '0']) :
    ∃ y, read? (canonicalText x) = some y ∧ y.isFinite = true ∧
      canonicalText y = canonicalText x := by
  rcases Nat.lt_or_ge (wholePart x) powerThreshold with hlt | hge
  · by_cases hc : countOf 6 x = 0
    · have hzero : canonicalText x = ['0'] := by
        have hcanonical := canonicalText_eq hx hlt
        rw [hc, text_trimmedLiteral_zero] at hcanonical
        generalize (isNegative x && (!isIntegral x || wholePart x != 0)) = negative at hcanonical
        cases negative with
        | false => exact hcanonical
        | true => exact absurd hcanonical h
      rw [hzero]
      exact ⟨0, by decide +kernel, by decide, by decide +kernel⟩
    · exact reread_of_countOf_ne_zero hx hlt hc
  · rw [canonicalText_of_large hx hge]
    exact ⟨x, read?_naturalText hx, hx, canonicalText_of_large hx hge⟩

theorem unpack_zero : (0 : Float).toModel.unpack = .zero .positive := rfl

theorem ofModel_pack_unpack (hx : x.isFinite = true) :
    Float.ofModel (Float.Model.pack x.toModel.unpack) = x := by
  have hplain : IsPlain x.toBits.toBitVec.toNat := (isFinite_iff_bits.mp hx).le
  have hword : pack Format.binary64 (unpack Format.binary64 x.toBits.toBitVec) =
      x.toBits.toBitVec := by
    rw [pack_unpack, isNaNBits_eq_false hplain]
    rfl
  refine eq_of_bits_eq ?_
  exact congrArg BitVec.toNat hword

theorem add_zero_cases (hx : x.isFinite = true) :
    x + 0 = x ∧ 0 + x = x ∨ units x = 0 ∧ x + 0 = 0 ∧ 0 + x = 0 := by
  have hadd (a b : Float) : a + b = Float.ofModel (Float.Model.pack
      (add Format.binary64 a.toModel.unpack b.toModel.unpack)) := rfl
  have hback := ofModel_pack_unpack hx
  have hfields : Fields (bits x) x.toModel.unpack := fields_unpack (isFinite_unpack.mp hx)
  rw [hadd, hadd, unpack_zero]
  cases hu : x.toModel.unpack with
  | zero s =>
    rw [hu] at hfields
    cases hfields with
    | zero hs hw =>
      refine .inr ⟨units_eq_zero_iff.mpr hw, ?_⟩
      cases s <;> exact ⟨rfl, rfl⟩
  | finite s m e hm =>
    rw [hu] at hback
    exact .inl ⟨hback, hback⟩
  | _ =>
    rw [hu] at hfields
    cases hfields

end Double
end FormulaTable
