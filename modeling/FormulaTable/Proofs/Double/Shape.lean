import FormulaTable.Cell.Coercion
import FormulaTable.Proofs.Double.Canonical
import FormulaTable.Proofs.Double.Choice
import FormulaTable.Proofs.Format.Monotone

/-!
# The shape of a canonical text

A whole number below `10 ^ 21` is written in digits, and a greater one as its shortest decimal with
a power of ten. Any other number is written with at most six places, of which the last is not zero,
and the text denotes the multiple of `10 ^ (-6)` nearest to the number.
-/

namespace FormulaTable
open Formula (Literal)
open Decimal (IsPlaced Significant denoted? numeral digitCount dropZeros exponentText intText
  keptPlaces? placedLiteral pointed withoutZeros)

theorem Rounding.even_of_half {num den : Nat} (h : 0 < den)
    (ht : 2 * |(num : ℚ) / den - toEven num den| = 1) : 2 ∣ toEven num den := by
  have hd : (0 : ℚ) < den := by exact_mod_cast h
  have hcancel : (num : ℚ) / den * den = num := div_mul_cancel₀ _ hd.ne'
  have habove := @even_of_tie_above num _ h
  have hbelow := @even_of_tie_below num _ h
  generalize toEven num den = n at *
  rcases le_total (n : ℚ) (num / den) with hle | hle
  · rw [abs_of_nonneg (sub_nonneg.mpr hle)] at ht
    refine habove ?_
    have hscaled : (2 * num : ℚ) = (2 * n + 1) * den := by
      rw [← hcancel, ← mul_assoc]
      congr 1
      linarith
    exact_mod_cast hscaled
  · rw [abs_of_nonpos (sub_nonpos.mpr hle)] at ht
    refine hbelow ?_
    have hscaled : (2 * n * den : ℚ) = 2 * num + den := by
      rw [← hcancel, ← mul_assoc, ← add_one_mul]
      congr 1
      linarith
    exact_mod_cast hscaled

/-- `v` is `q` rounded to some decimal places: the nearest multiple, and of two the even one. -/
structure RoundedEven (places : Nat) (q v : ℚ) : Prop where
  grid : ∃ n : Int, v = n / 10 ^ places
  near : 2 * |v - q| ≤ (10 ^ places)⁻¹
  even : ∀ n : Int, v = n / 10 ^ places → 2 * |v - q| = (10 ^ places)⁻¹ → 2 ∣ n

theorem abs_signedBy (negative : Bool) {q : ℚ} (h : 0 ≤ q) : |signedBy negative q| = q := by
  unfold signedBy
  split
  · rw [abs_neg, abs_of_nonneg h]
  · exact abs_of_nonneg h

theorem RoundedEven.signedBy {places : Nat} {q v : ℚ} (h : RoundedEven places q v)
    (negative : Bool) :
    RoundedEven places (signedBy negative q) (signedBy negative v) := by
  cases negative with
  | false => exact h
  | true =>
    obtain ⟨⟨n, hn⟩, hnear, heven⟩ := h
    have hdistance : |-v - -q| = |v - q| := by rw [neg_sub_neg, abs_sub_comm]
    rw [FormulaTable.signedBy, if_pos rfl, FormulaTable.signedBy, if_pos rfl]
    refine ⟨⟨-n, ?_⟩, ?_, fun m hm htie => ?_⟩
    · rw [hn, Int.cast_neg, neg_div]
    · rwa [hdistance]
    · rw [hdistance] at htie
      have hv : v = (-m : Int) / 10 ^ places := by rw [Int.cast_neg, neg_div, ← hm, neg_neg]
      exact (dvd_neg.mp (heven _ hv htie))

namespace Double
variable {x : Float}

def value (x : Float) : ℚ := signedBy (isNegative x) (magnitude x)

theorem abs_value (x : Float) : |value x| = magnitude x :=
  abs_signedBy (isNegative x) (div_nonneg (Nat.cast_nonneg _) (Nat.cast_nonneg _))

theorem units_mul_div (places : Nat) (x : Float) :
    ((units x * 10 ^ places : Nat) : ℚ) / unitsPerOne = magnitude x * 10 ^ places := by
  rw [magnitude, Nat.cast_mul, Nat.cast_pow, Nat.cast_ofNat, div_mul_eq_mul_div]

theorem roundedEven_countOf (places : Nat) (x : Float) :
    RoundedEven places (magnitude x) (countOf places x / 10 ^ places) := by
  have hscale : (0 : ℚ) < 10 ^ places := pow_pos (by norm_num) _
  have hclose := Rounding.abs_sub_toEven_le (units x * 10 ^ places) unitsPerOne_pos
  have heven := @Rounding.even_of_half (units x * 10 ^ places) _ unitsPerOne_pos
  rw [← countOf] at hclose heven
  rw [units_mul_div, abs_sub_comm] at hclose heven
  have hdistance := FormulaTable.double_distance hscale (countOf places x) (magnitude x)
  refine ⟨⟨countOf places x, by rw [Int.cast_natCast]⟩, ?_, fun n hn htie => ?_⟩
  · rw [hdistance, ← one_div]
    exact div_le_div_of_nonneg_right (by linarith) hscale.le
  · rw [hdistance, ← one_div, div_left_inj' hscale.ne'] at htie
    rw [div_left_inj' hscale.ne'] at hn
    have hcount : n = countOf places x := by exact_mod_cast hn.symm
    rw [hcount]
    exact_mod_cast heven htie

structure IsTrimmed (places : Nat) (l : Literal) : Prop where
  whole : l.whole ≠ []
  front : l.whole.head? = some '0' → l.whole = ['0']
  fraction : ∀ ds ∈ l.fraction?, ds ≠ [] ∧ ds.length ≤ places ∧ ds.getLast? ≠ some '0'

theorem isTrimmed_numeral (n : Nat) : IsTrimmed 0 (placedLiteral 0 n) := by
  have hplaced := Decimal.isPlaced_placedLiteral 0 n
  refine ⟨hplaced.whole, hplaced.front, fun ds hds => ?_⟩
  rw [hplaced.point.mpr rfl] at hds
  cases hds

theorem isTrimmed_withoutZeros {places : Nat} {l : Literal} (h : IsPlaced places l) :
    IsTrimmed places (withoutZeros l h.whole) := by
  refine ⟨h.whole, h.front, fun ds hds => ?_⟩
  obtain ⟨all, hall, hkept⟩ := Option.bind_eq_some_iff.mp hds
  unfold keptPlaces? at hkept
  split at hkept
  · cases hkept
  · next hne =>
    obtain rfl := Option.some.inj hkept
    obtain ⟨zeros, hsplit⟩ := Decimal.exists_dropZeros all
    have hlength := h.length
    rw [hall, Option.getD_some, hsplit, List.length_append] at hlength
    exact ⟨hne, by omega, Decimal.getLast?_dropZeros all⟩

def trimmedLiteral (places count : Nat) : Literal :=
  withoutZeros (placedLiteral places count) (Decimal.isPlaced_placedLiteral places count).whole

theorem isTrimmed_trimmedLiteral (places count : Nat) :
    IsTrimmed places (trimmedLiteral places count) :=
  isTrimmed_withoutZeros (Decimal.isPlaced_placedLiteral places count)

theorem value_trimmedLiteral (places count : Nat) :
    (trimmedLiteral places count).decimal.value = count / 10 ^ places := by
  rw [trimmedLiteral, Decimal.value_withoutZeros, Decimal.value_placedLiteral]

theorem magnitude_of_isIntegral (h : isIntegral x = true) : magnitude x = wholePart x := by
  have hone : (unitsPerOne : ℚ) ≠ 0 := by exact_mod_cast unitsPerOne_pos.ne'
  rw [magnitude, units_of_isIntegral h, Nat.cast_mul, mul_div_cancel_right₀ _ hone]

theorem value_of_isIntegral (h : isIntegral x = true) : value x = toInt x := by
  rw [value, magnitude_of_isIntegral h, toInt_eq]

theorem isIntegral_of_value_eq (hx : x.isFinite = true) {n : Int} (h : value x = n) :
    isIntegral x = true := by
  have hone : (unitsPerOne : ℚ) ≠ 0 := by exact_mod_cast unitsPerOne_pos.ne'
  have hmagnitude : magnitude x = |(n : ℚ)| := by rw [← h, abs_value]
  rw [← Int.cast_abs, Int.abs_eq_natAbs, magnitude, div_eq_iff hone] at hmagnitude
  have hunits : units x = n.natAbs * unitsPerOne := by exact_mod_cast hmagnitude
  exact isIntegral_iff.mpr ⟨hx, hunits ▸ Nat.dvd_mul_left _ _⟩

theorem toInt_of_value_eq (hx : x.isFinite = true) {n : Int} (h : value x = n) : toInt x = n := by
  rw [value_of_isIntegral (isIntegral_of_value_eq hx h)] at h
  exact_mod_cast h

theorem natAbs_toInt (x : Float) : (toInt x).natAbs = wholePart x := by
  unfold toInt
  split <;> simp

theorem toInt_neg_iff (h : wholePart x ≠ 0) : toInt x < 0 ↔ isNegative x = true := by
  unfold toInt
  cases isNegative x with
  | false => simp
  | true =>
    simp
    omega

theorem decide_toInt_neg (h : wholePart x ≠ 0) : decide (toInt x < 0) = isNegative x := by
  rw [Bool.eq_iff_iff, decide_eq_true_iff, toInt_neg_iff h]

theorem intText_eq (n : Int) :
    intText n = NumberFormat.sign (n < 0) ++ (placedLiteral 0 n.natAbs).text := by
  rw [Decimal.text_placedLiteral, Decimal.placedText, if_pos rfl, Nat.pow_zero, Nat.div_one]
  unfold intText Decimal.wholeText NumberFormat.sign
  split <;> rfl

theorem exists_literal_scientific {ds : List Char} (hds : ∀ c ∈ ds, c.isDigit = true)
    (hne : ds ≠ []) (hfront : ds.head? ≠ some '0') (hlast : ds.getLast? ≠ some '0') :
    ∃ l c, l.text = pointed ds ∧ l.whole = [c] ∧ c ≠ '0' ∧ IsTrimmed (ds.length - 1) l ∧
      l.digits = ds := by
  rcases ds with _ | ⟨c, _ | ⟨b, rest⟩⟩
  · exact absurd rfl hne
  · have hc : c ≠ '0' := by simpa using hfront
    let l : Literal := ⟨[c], none, by simpa using hds, by simp⟩
    exact ⟨l, c, rfl, rfl, hc, ⟨by simp [l], by simp [l], by simp [l]⟩, rfl⟩
  · have hc : c ≠ '0' := by simpa using hfront
    let l : Literal := ⟨[c], some (b :: rest), by simpa using hds, by simp⟩
    refine ⟨l, c, rfl, rfl, hc, ⟨by simp [l], by simp [l, hc], ?_⟩, rfl⟩
    rintro _ ⟨⟩
    exact ⟨List.cons_ne_nil _ _, le_rfl, by rwa [List.getLast?_cons_cons] at hlast⟩

theorem exponentText_of_le {e : Int} (h : 10 ≤ e) : exponentText 2 e = '+' :: numeral e.toNat := by
  have hlength : 2 ≤ (numeral e.natAbs).length := by
    by_contra hshort
    have hlt := (Nat.length_toDigits_le_iff (b := 10) (n := e.natAbs) (k := 1) (by decide)
      (by decide)).mp (by unfold numeral at hshort; omega)
    omega
  have hnat : e.toNat = e.natAbs := by omega
  rw [exponentText, if_neg (by omega), Decimal.padLeft, Nat.sub_eq_zero_of_le hlength, hnat]
  rfl

theorem digits_ne_zero_of_large {d : Decimal} (h : (powerThreshold : ℚ) ≤ d.value) :
    d.digits ≠ 0 := by
  intro hzero
  rw [Decimal.value, hzero, Nat.cast_zero, zero_mul] at h
  exact absurd h (by norm_num [powerThreshold])

theorem lt_place_of_large {d : Decimal} (h : (powerThreshold : ℚ) ≤ d.value) :
    (21 : Int) < digitCount d.digits + d.exponent := by
  have hten : (powerThreshold : ℚ) = 10 ^ (21 : Int) := by norm_num [powerThreshold]
  rw [hten] at h
  exact (zpow_lt_zpow_iff_right₀ (by norm_num)).mp (h.trans_lt d.value_lt)

theorem exists_text_natural {d : Decimal} (h : (powerThreshold : ℚ) ≤ d.value) :
    ∃ l c e, natural.text d = l.text ++ 'e' :: '+' :: numeral e ∧ l.whole = [c] ∧ c ≠ '0' ∧
      IsTrimmed (d.width - 1) l ∧ l.digits.length = d.width ∧
      l.decimal.value * 10 ^ e = d.value := by
  have hne := digits_ne_zero_of_large h
  obtain ⟨core, zeros, hd⟩ := Significant.exists_of_ne_zero hne
  have hds : dropZeros (numeral d.digits) = numeral core := hd.dropZeros_numeral
  have hlast : (numeral core).getLast? ≠ some '0' := by
    rw [← Decimal.dropZeros_numeral_of_mod hd.mod]
    exact Decimal.getLast?_dropZeros _
  obtain ⟨l, c, htext, hwhole, hc, htrimmed, hdigits⟩ :=
    exists_literal_scientific (Decimal.isDigit_of_mem_numeral (n := core))
      (Decimal.numeral_ne_nil core) (Decimal.head?_numeral hd.core_ne_zero) hlast
  have hwidth : (numeral core).length = d.width := (Decimal.width_eq hd).symm
  have hplace := lt_place_of_large h
  obtain ⟨e, he⟩ : ∃ e : Nat, (e : Int) = (digitCount d.digits : Int) - 1 + d.exponent :=
    ⟨((digitCount d.digits : Int) - 1 + d.exponent).toNat, by omega⟩
  refine ⟨l, c, e, ?_, hwhole, hc, hwidth ▸ htrimmed, by rw [hdigits, hwidth], ?_⟩
  · have hpositional : ¬ (natural.least ≤ (e : Int) ∧ (e : Int) ≤ natural.greatest) := by
      rintro ⟨-, hle⟩
      have hgreatest : natural.greatest = 15 := rfl
      omega
    rw [Decimal.Layout.text, if_neg hne]
    dsimp only
    rw [hds, ← he, if_neg hpositional, ← htext]
    exact congrArg (l.text ++ 'e' :: ·) (exponentText_of_le (by omega))
  · have hlength : (numeral core).length = 1 + (l.fraction?.getD []).length := by
      rw [← hdigits, Literal.digits, hwhole, List.length_append, List.length_singleton]
    have hcount := hd.digitCount_eq
    have hplaces : -((l.fraction?.getD []).length : Int) + e = d.exponent + zeros := by
      have hcore : digitCount core = (numeral core).length := rfl
      omega
    rw [Decimal.value_literal, hdigits, Decimal.ofDigitChars_numeral, mul_assoc, ← zpow_natCast,
      ← zpow_add₀ (by norm_num), hplaces, Decimal.value_eq_core hd]

theorem ofMagnitude_bits (hx : x.isFinite = true) :
    ofMagnitude (isNegative x) (bits x % 2 ^ 63) = x := by
  have hlt := bits_lt x
  refine eq_of_bits_eq ?_
  rw [bits_ofMagnitude _ (isFinite_iff_bits.mp hx).le]
  unfold isNegative
  by_cases hneg : 2 ^ 63 ≤ bits x
  · rw [if_pos (decide_eq_true hneg)]
    omega
  · rw [if_neg (by simpa using hneg)]
    omega

theorem ofDecimal_of_readsBack (hx : x.isFinite = true) {d : Decimal} (h : ReadsBack x d) :
    ofDecimal (isNegative x) d = x := by
  rw [ofDecimal_eq, h, ofMagnitude_bits hx]

theorem read?_signed (l : Decimal.Layout) (hx : x.isFinite = true) :
    read? (signed x (l.text (shortest x))) = some x := by
  obtain ⟨d, hread, hvalue⟩ := Decimal.readUnsigned?_layout l (shortest x)
  have hback := ofDecimal_of_readsBack hx ((shortest_readsBack hx).1.of_value_eq hvalue)
  rw [signed, read?, Decimal.read?_signed (isNegative x) hread]
  exact congrArg some hback

theorem read?_naturalText (hx : x.isFinite = true) : read? (naturalText x) = some x := by
  rw [naturalText, if_pos hx, read?_signed natural hx]

theorem placedText_eq (hx : x.isFinite = true) {places : Nat} :
    placedText places x =
      NumberFormat.sign (isNegative x) ++ (placedLiteral places (countOf places x)).text := by
  rw [placedText, if_pos hx, signed, Decimal.text_placedLiteral, NumberFormat.sign_append]

inductive WellShaped (x : Float) (s : List Char) : Prop
  | whole {n : Int} {l : Literal} (hx : value x = n) (hn : n.natAbs < 10 ^ 21)
      (hs : s = NumberFormat.sign (n < 0) ++ l.text) (hl : IsTrimmed 0 l)
      (hv : l.decimal.value = n.natAbs)
  | power {n : Int} {l : Literal} {c : Char} {e : Nat} {d : Decimal} (hx : value x = n)
      (hn : 10 ^ 21 ≤ n.natAbs)
      (hs : s = NumberFormat.sign (n < 0) ++ l.text ++ 'e' :: '+' :: numeral e)
      (hl : IsTrimmed 16 l) (hc : l.whole = [c] ∧ c ≠ '0') (hd : IsShortest x d)
      (hw : l.digits.length = d.width) (hv : l.decimal.value * 10 ^ e = d.value)
      (hr : read? s = some x)
  | fraction {l : Literal} {v : ℚ} (hx : ∀ n : Int, value x ≠ n)
      (hs : s = NumberFormat.sign (isNegative x) ++ l.text) (hl : IsTrimmed 6 l)
      (hv : denoted? s = some v) (hr : RoundedEven 6 (value x) v)
      (hz : denoted? (placedText 6 x) = some v)

theorem WellShaped.mem {s : List Char} (h : WellShaped x s) :
    ∀ c ∈ s, c.isDigit = true ∨ c ∈ ['-', '.', 'e', '+'] := by
  have hsign (negative : Bool) : ∀ c ∈ NumberFormat.sign negative, c ∈ ['-', '.', 'e', '+'] := by
    cases negative <;> simp [NumberFormat.sign]
  have hliteral (l : Literal) : ∀ c ∈ l.text, c.isDigit = true ∨ c ∈ ['-', '.', 'e', '+'] :=
    fun c hc => (l.mem_text hc).imp_right fun h => by simp [h]
  intro c hc
  cases h with
  | whole _ _ hs | fraction _ hs =>
    rw [hs] at hc
    rcases List.mem_append.mp hc with hc | hc
    · exact .inr (hsign _ c hc)
    · exact hliteral _ c hc
  | power _ _ hs =>
    rw [hs, List.append_assoc] at hc
    rcases List.mem_append.mp hc with hc | hc
    · exact .inr (hsign _ c hc)
    · rcases List.mem_append.mp hc with hc | hc
      · exact hliteral _ c hc
      · rcases List.mem_cons.mp hc with rfl | hc
        · exact .inr (by decide)
        · rcases List.mem_cons.mp hc with rfl | hc
          · exact .inr (by decide)
          · exact .inl (Decimal.isDigit_of_mem_numeral c hc)

theorem canonicalText_whole (hx : isIntegral x = true) (h : wholePart x < powerThreshold) :
    WellShaped x (canonicalText x) := by
  have hn := natAbs_toInt x
  refine .whole (value_of_isIntegral hx) (by rwa [hn]) ?_ (isTrimmed_numeral (wholePart x)) ?_
  · rw [canonicalText, if_pos hx, if_neg (Nat.not_le.mpr h), intText_eq, hn]
  · rw [Decimal.value_placedLiteral, pow_zero, div_one, hn]

theorem canonicalText_power (hx : isIntegral x = true) (h : powerThreshold ≤ wholePart x) :
    WellShaped x (canonicalText x) := by
  have hfinite : x.isFinite = true := (isIntegral_iff.mp hx).1
  have hn := natAbs_toInt x
  have hne : wholePart x ≠ 0 := by
    rintro hzero
    rw [hzero] at h
    exact absurd h (by decide)
  obtain ⟨l, c, e, htext, hwhole, hc, htrimmed, hwidth, hvalue⟩ :=
    exists_text_natural (threshold_le_shortest hfinite h)
  have hcanonical : canonicalText x = naturalText x := by
    rw [canonicalText, if_pos hx, if_pos h]
  have hcount := width_shortest_le hfinite
  refine .power (value_of_isIntegral hx) (by rwa [hn]) ?_ ?_ ⟨hwhole, hc⟩
    (isShortest_shortest hfinite) hwidth hvalue (by rw [hcanonical, read?_naturalText hfinite])
  · rw [hcanonical, naturalText, if_pos hfinite, signed, htext, decide_toInt_neg hne,
      List.append_assoc, NumberFormat.sign_append]
  · refine ⟨htrimmed.whole, htrimmed.front, fun ds hds => ?_⟩
    obtain ⟨hds, hlength, hlast⟩ := htrimmed.fraction ds hds
    exact ⟨hds, by omega, hlast⟩

theorem canonicalText_of_not_isIntegral (hx : x.isFinite = true) (h : isIntegral x = false) :
    canonicalText x =
      NumberFormat.sign (isNegative x) ++ (trimmedLiteral 6 (countOf 6 x)).text := by
  have hplaced := Decimal.isPlaced_placedLiteral 6 (countOf 6 x)
  have hpoint : (placedLiteral 6 (countOf 6 x)).fraction? ≠ none :=
    fun hnone => absurd (hplaced.point.mp hnone) (by decide)
  rw [canonicalText, h, if_neg Bool.false_ne_true, placedText_eq hx,
    dropPlaces_text hplaced.whole hpoint, trimmedLiteral]

theorem canonicalText_fraction (hx : x.isFinite = true) (h : isIntegral x = false) :
    WellShaped x (canonicalText x) := by
  have hvalue : ∀ n : Int, value x ≠ n := fun n hn => by
    rw [isIntegral_of_value_eq hx hn] at h
    cases h
  have hcanonical := canonicalText_of_not_isIntegral hx h
  refine .fraction hvalue hcanonical (isTrimmed_trimmedLiteral 6 _) ?_
    ((roundedEven_countOf 6 x).signedBy (isNegative x)) ?_
  · rw [hcanonical, NumberFormat.denoted?_literal, value_trimmedLiteral]
  · rw [placedText_eq hx, NumberFormat.denoted?_literal, Decimal.value_placedLiteral]

theorem wellShaped_canonicalText (hx : x.isFinite = true) : WellShaped x (canonicalText x) := by
  cases hint : isIntegral x with
  | false => exact canonicalText_fraction hx hint
  | true =>
    rcases Nat.lt_or_ge (wholePart x) powerThreshold with hlt | hge
    · exact canonicalText_whole hint hlt
    · exact canonicalText_power hint hge

end Double

open Double (WellShaped)

/-- The text of a cell with a finite number. -/
theorem Cell.toText_wellShaped {x : Float} (hx : x.isFinite = true) :
    ∃ s, (Cell.number x).toText = .ok s ∧ WellShaped x s.toList :=
  ⟨_, rfl, by rw [String.toList_ofList]; exact Double.wellShaped_canonicalText hx⟩

theorem Cell.toText_wellShaped_carry :
    Float.isFinite 99.9999999 = true ∧ (Cell.number 99.9999999).toText = .ok "100" ∧
      (∀ n : Int, Double.value 99.9999999 ≠ n) ∧ WellShaped 99.9999999 "100".toList := by
  have hfinite : Float.isFinite 99.9999999 = true := by decide
  have htext : (Cell.number 99.9999999).toText = .ok "100" := by decide +kernel
  have hfraction : Double.isIntegral 99.9999999 = false := by decide +kernel
  obtain ⟨s, hs, hshape⟩ := @toText_wellShaped 99.9999999 hfinite
  obtain rfl : "100" = s := Except.ok.inj (htext.symm.trans hs)
  refine ⟨hfinite, htext, fun n hn => ?_, hshape⟩
  rw [Double.isIntegral_of_value_eq hfinite hn] at hfraction
  cases hfraction

end FormulaTable
