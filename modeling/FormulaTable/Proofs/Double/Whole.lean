import FormulaTable.Double.Canonical
import FormulaTable.Proofs.Double.Rounding

/-!
# Whole numbers as doubles

From `2 ^ 53` on doubles lie at least one apart, so that all of them are whole. A whole number of
`10 ^ 21` or more has a nearest double in this range, again of `10 ^ 21` or more, and its canonical
text is the shortest one that reads back.
-/

namespace FormulaTable.Double

variable {x : Float}

theorem isIntegral_iff : isIntegral x = true ↔ x.isFinite = true ∧ unitsPerOne ∣ units x := by
  rw [isIntegral, Bool.and_eq_true, beq_iff_eq, Nat.dvd_iff_mod_eq_zero]

theorem units_of_isIntegral (h : isIntegral x = true) : units x = wholePart x * unitsPerOne :=
  (Nat.div_mul_cancel (isIntegral_iff.mp h).2).symm

theorem isIntegral_of_le_wholePart (hx : x.isFinite = true) (h : 2 ^ 53 ≤ wholePart x) :
    isIntegral x = true := by
  have hunits : 2 ^ 53 * unitsPerOne ≤ units x := (Nat.le_div_iff_mul_le unitsPerOne_pos).mp h
  obtain ⟨k, m, hkm, hm, hword⟩ := exists_binade (bits x % 2 ^ 63)
  have hstep : units x = m * 2 ^ k := by rw [units_eq, hword, unitsOf_binade hkm]
  -- Fewer than `2 ^ 53` steps make up the magnitude, so that each of them is one or more.
  have hk : finestPlace ≤ k := by
    by_contra hlt
    have hpow : 2 ^ k ≤ unitsPerOne := Nat.pow_le_pow_right (by decide) (by omega)
    have hshort : m * 2 ^ k < 2 ^ 53 * unitsPerOne :=
      calc m * 2 ^ k < 2 ^ 53 * 2 ^ k := Nat.mul_lt_mul_of_pos_right hm (Nat.two_pow_pos k)
        _ ≤ 2 ^ 53 * unitsPerOne := Nat.mul_le_mul_left _ hpow
    rw [hstep] at hunits
    exact absurd hunits (Nat.not_le.mpr hshort)
  have hdvd : unitsPerOne ∣ units x := by
    rw [hstep]
    exact Dvd.dvd.mul_left (Nat.pow_dvd_pow 2 hk) m
  exact isIntegral_iff.mpr ⟨hx, hdvd⟩

def threshold : Float := ofMagnitude false (nearestBits powerThreshold 1)

theorem units_threshold : units threshold = powerThreshold * unitsPerOne := by decide +kernel

theorem isFinite_threshold : threshold.isFinite = true := by decide +kernel

theorem le_wholePart_of_ofInt? {n : Int} (h : ofInt? n = some x)
    (hn : powerThreshold ≤ n.natAbs) : powerThreshold ≤ wholePart x := by
  have hx := isFinite_ofInt? h
  have hrounds : Rounds n.natAbs x := by
    have hround (negative : Bool) := rounds_ofMagnitude negative n.natAbs Nat.one_pos
    unfold ofInt? at h
    dsimp only at h
    split at h
    · cases h
    · cases h
      simpa using hround (n < 0)
  have hnearest := hrounds.nearest hx threshold isFinite_threshold
  have hone : (unitsPerOne : ℚ) ≠ 0 := by exact_mod_cast unitsPerOne_pos.ne'
  have hthreshold : magnitude threshold = powerThreshold := by
    rw [magnitude, units_threshold, Nat.cast_mul, mul_div_cancel_right₀ _ hone]
  have hle : (powerThreshold : ℚ) ≤ n.natAbs := by exact_mod_cast hn
  have hmagnitude : (powerThreshold : ℚ) ≤ magnitude x := by
    rw [hthreshold, abs_of_nonneg (sub_nonneg.mpr hle)] at hnearest
    linarith [le_abs_self ((n.natAbs : ℚ) - magnitude x)]
  have hpos : (0 : ℚ) < unitsPerOne := by exact_mod_cast unitsPerOne_pos
  rw [magnitude, le_div_iff₀ hpos] at hmagnitude
  exact (Nat.le_div_iff_mul_le unitsPerOne_pos).mpr (by exact_mod_cast hmagnitude)

theorem canonicalText_of_ofInt? {n : Int} (h : ofInt? n = some x)
    (hn : powerThreshold ≤ n.natAbs) : canonicalText x = naturalText x := by
  have hlarge := le_wholePart_of_ofInt? h hn
  have hwhole : 2 ^ 53 ≤ wholePart x := le_trans (by decide) hlarge
  rw [canonicalText, if_pos (isIntegral_of_le_wholePart (isFinite_ofInt? h) hwhole),
    if_pos hlarge]

theorem dropPlaces_of_getLast {cs : List Char} (h : ∀ c ∈ cs.getLast?, c ≠ '0' ∧ c ≠ '.') :
    dropPlaces cs = cs := by
  unfold dropPlaces
  rw [← List.head?_reverse] at h
  cases hcs : cs.reverse with
  | nil => rw [List.reverse_eq_nil_iff.mp hcs]; rfl
  | cons c rest =>
    rw [hcs] at h
    obtain ⟨hzero, hpoint⟩ := h c rfl
    rw [List.dropWhile_cons_of_neg (by simpa using hzero),
      List.dropWhile_cons_of_neg (by simpa using hpoint), ← hcs, List.reverse_reverse]

theorem canonicalText_of_not_isFinite (hx : x.isFinite = false) :
    canonicalText x = naturalText x := by
  have hspecial : ∀ c ∈ (specialText x).getLast?, c ≠ '0' ∧ c ≠ '.' := by
    unfold specialText signed
    repeat' split
    all_goals simp
  have hintegral : isIntegral x = false := by simp [isIntegral, hx]
  rw [canonicalText, hintegral, if_neg Bool.false_ne_true, placedText, naturalText, hx,
    if_neg Bool.false_ne_true, if_neg Bool.false_ne_true, dropPlaces_of_getLast hspecial]

theorem keptText_of_not_isIntegral (h : isIntegral x = false) : keptText x = naturalText x := by
  rw [keptText, h, Bool.false_and, if_neg Bool.false_ne_true]

theorem keptText_eq_canonicalText (h : x.isFinite = true → isIntegral x = true) :
    keptText x = canonicalText x := by
  cases hx : isIntegral x with
  | true => exact keptText_of_isIntegral hx
  | false =>
    have hinfinite : x.isFinite = false := by
      rw [Bool.eq_false_iff]
      exact fun hfinite => Bool.false_ne_true (hx.symm.trans (h hfinite))
    rw [keptText_of_not_isIntegral hx, canonicalText_of_not_isFinite hinfinite]

end FormulaTable.Double
