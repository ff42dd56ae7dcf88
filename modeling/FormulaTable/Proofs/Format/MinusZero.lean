import FormulaTable.Proofs.Double.Reread

/-!
# Zeros with a minus

A negative number that is nearer to zero than half of the last place is shown as a zero with a
minus, in the text of a cell and by every format, and a format shows a negative zero in the same
way. Apart from that a text is determined by the number that it denotes.
-/

namespace FormulaTable
open Formula (Literal)
open Decimal (denoted? placedLiteral)

/-- The text has a minus in front, and no digit in it but zeros. -/
def MinusZero (cs : List Char) : Prop :=
  cs.head? = some '-' ∧ ∀ c ∈ cs, c.isDigit = true → c = '0'

-- Not by running through all characters, which are finitely many.
instance : DecidablePred MinusZero := fun cs =>
  decidable_of_iff (cs.head? = some '-' ∧ cs.all fun c => !c.isDigit || c == '0') <| by
    simp [MinusZero, imp_iff_not_or]

theorem ofDigitChars_eq_zero_iff {ds : List Char} (h : ∀ c ∈ ds, c.isDigit = true) :
    Nat.ofDigitChars 10 ds 0 = 0 ↔ ∀ c ∈ ds, c = '0' := by
  induction ds using List.reverseRecOn with
  | nil => simp
  | append_singleton ds c ih =>
    obtain ⟨hds, hc⟩ := List.forall_mem_append.mp h
    have hvalue : Nat.ofDigitChars 10 (ds ++ [c]) 0 =
        10 * Nat.ofDigitChars 10 ds 0 + (c.toNat - 48) := by
      rw [Nat.ofDigitChars_append]
      rfl
    have hdigit : c.toNat - 48 = 0 ↔ c = '0' := by
      have hzero : '0'.toNat = 48 := rfl
      rw [List.forall_mem_singleton, Char.isDigit_iff_toNat] at hc
      rw [← Char.toNat_inj]
      omega
    rw [hvalue, List.forall_mem_append, List.forall_mem_singleton, ← ih hds, ← hdigit]
    omega

theorem minusZero_iff {cs : List Char} :
    MinusZero cs ↔ cs.head? = some '-' ∧ (NumberFormat.figure cs).digits = 0 := by
  have hdigits : ∀ c ∈ cs.filter Char.isDigit, c.isDigit = true :=
    fun c hc => (List.mem_filter.mp hc).2
  rw [MinusZero, NumberFormat.figure, ofDigitChars_eq_zero_iff hdigits]
  simp only [List.mem_filter, and_imp]

theorem signedBy_inj {negative negative' : Bool} {q q' : ℚ} (hq : 0 ≤ q) (hq' : 0 ≤ q')
    (h : signedBy negative q = signedBy negative' q') :
    q = q' ∧ (q ≠ 0 → negative = negative') := by
  obtain rfl : q = q' := by rw [← abs_signedBy negative hq, h, abs_signedBy negative' hq']
  refine ⟨rfl, fun hne => ?_⟩
  have hpos : 0 < q := lt_of_le_of_ne hq (Ne.symm hne)
  unfold signedBy at h
  cases negative <;> cases negative' <;> simp only [if_true, Bool.false_eq_true, if_false] at h <;>
    first | rfl | linarith

namespace NumberFormat
variable {f : NumberFormat} {l : Literal} {x y : Float}

theorem minusZero_shown (negative : Bool) :
    MinusZero (f.shown negative l) ↔ negative = true ∧ l.decimal.digits = 0 := by
  rw [minusZero_iff, figure_shown]
  refine and_congr_left' ?_
  cases negative with
  | true => simp [shown, sign]
  | false =>
    have hsign : '-' ∉ f.front l ++ back l ++ f.unit := by
      have hfront : '-' ∉ f.front l := notMem_front (by decide) (by decide)
      have hback : '-' ∉ back l := notMem_back (by decide) (by decide)
      have hunit : '-' ∉ f.unit := by unfold unit; cases f.percent <;> decide
      simp [hfront, hback, hunit]
    refine iff_of_false (fun h => hsign ?_) Bool.false_ne_true
    simpa [shown, sign] using List.mem_of_head? h

theorem shownCount_eq_zero_iff (hx : x.isFinite = true) {d : Decimal} (hd : Double.IsShortest x d)
    (f : NumberFormat) :
    f.shownCount x = 0 ↔
      2 * (d.value * if f.percent then 100 else 1) < (10 ^ f.places)⁻¹ := by
  have hscale : (0 : ℚ) < 10 ^ f.places := pow_pos (by norm_num) _
  rw [shownCount_eq, Decimal.countOf_eq_floor, Nat.floor_eq_zero, value_shownDecimal,
    hd.unique hx (Double.isShortest_shortest hx), ← one_div, lt_div_iff₀ hscale]
  constructor <;> intro h <;> linarith

theorem shownDouble_eq_iff (hx : x.isFinite = true) (hy : y.isFinite = true) {s t : String}
    (hs : f.showDouble x = .ok s) (ht : f.showDouble y = .ok t)
    (h : denoted? (plain t.toList) = denoted? (plain s.toList)) :
    t = s ↔ (MinusZero t.toList ↔ MinusZero s.toList) := by
  rw [showDouble_eq hx] at hs
  rw [showDouble_eq hy] at ht
  obtain rfl := Except.ok.inj hs
  obtain rfl := Except.ok.inj ht
  rw [String.toList_ofList, String.toList_ofList] at h ⊢
  rw [denoted?_shown, denoted?_shown, Option.some.injEq] at h
  have hnonneg (count : Nat) : (0 : ℚ) ≤ count / 10 ^ f.places := by positivity
  obtain ⟨hvalue, hsign⟩ := signedBy_inj (hnonneg _) (hnonneg _) h
  have hscale : (10 : ℚ) ^ f.places ≠ 0 := pow_ne_zero _ (by norm_num)
  have hcount : f.shownCount y = f.shownCount x := by
    exact_mod_cast (div_left_inj' hscale).mp hvalue
  constructor
  · intro hsame
    rw [String.ofList_injective hsame]
  · intro hminus
    rw [minusZero_shown, minusZero_shown, Decimal.decimal_placedLiteral,
      Decimal.decimal_placedLiteral, hcount] at hminus
    have hnegative : Double.isNegative y = Double.isNegative x := by
      by_cases hzero : f.shownCount x = 0
      · rw [Bool.eq_iff_iff]
        exact (and_iff_left hzero).symm.trans (hminus.trans (and_iff_left hzero))
      · rw [hcount] at hsign
        exact hsign (div_ne_zero (by exact_mod_cast hzero) hscale)
    rw [hnegative, hcount]

end NumberFormat

theorem RoundedEven.eq_zero_iff {places : Nat} {q v : ℚ} (h : RoundedEven places q v) :
    v = 0 ↔ 2 * |q| ≤ (10 ^ places)⁻¹ := by
  obtain ⟨⟨n, hn⟩, hnear, heven⟩ := h
  have hscale : (0 : ℚ) < 10 ^ places := pow_pos (by norm_num) _
  constructor
  · rintro rfl
    rwa [zero_sub, abs_neg] at hnear
  · intro hq
    -- Otherwise zero and the multiple are both half a step away, but the multiple is odd.
    by_contra hv
    have hone : (1 : ℚ) ≤ |(n : ℚ)| := by
      have hne : n ≠ 0 := by
        rintro rfl
        exact hv (by rw [hn, Int.cast_zero, zero_div])
      exact_mod_cast Int.one_le_abs hne
    have hstep : |v| = |(n : ℚ)| * (10 ^ places)⁻¹ := by
      rw [hn, abs_div, abs_of_pos hscale, div_eq_mul_inv]
    have hpos : (0 : ℚ) < (10 ^ places)⁻¹ := inv_pos.mpr hscale
    have htriangle : |v| ≤ |v - q| + |q| := by simpa using abs_add_le (v - q) q
    have hle : (10 ^ places : ℚ)⁻¹ ≤ |v| := by
      rw [hstep]
      exact le_mul_of_one_le_left hpos.le hone
    have htie : 2 * |v - q| = (10 ^ places)⁻¹ := by linarith
    have hn1 : |(n : ℚ)| = 1 := by
      refine le_antisymm ?_ hone
      refine le_of_mul_le_mul_right ?_ hpos
      rw [← hstep]
      linarith
    have hdvd := heven n hn htie
    have hn1 : |n| = 1 := by exact_mod_cast hn1
    rw [Int.abs_eq_natAbs] at hn1
    omega

theorem Decimal.digits_eq_zero_iff {d : Decimal} : d.digits = 0 ↔ d.value = 0 := by
  rw [Decimal.value, mul_eq_zero, or_iff_left (zpow_pos (by norm_num) _).ne']
  exact_mod_cast Iff.rfl

namespace Double
variable {x y : Float} {s t : List Char}

theorem minusZero_literal (negative : Bool) (l : Literal) :
    MinusZero (NumberFormat.sign negative ++ l.text) ↔
      negative = true ∧ l.decimal.value = 0 := by
  have hshown : NumberFormat.auto.shown negative l = NumberFormat.sign negative ++ l.text := by
    rw [NumberFormat.shown_of_not_percent rfl, NumberFormat.text_eq, List.append_assoc]
    rfl
  rw [← hshown, NumberFormat.minusZero_shown, Decimal.digits_eq_zero_iff]

theorem not_small_of_intCast (n : Int) : ¬ ((n : ℚ) < 0 ∧ 2 * |(n : ℚ)| ≤ (10 ^ 6)⁻¹) := by
  rintro ⟨hneg, hsmall⟩
  have hne : n ≠ 0 := by
    rintro rfl
    exact lt_irrefl _ hneg
  have hone : (1 : ℚ) ≤ |(n : ℚ)| := by exact_mod_cast Int.one_le_abs hne
  norm_num at hsmall
  linarith

theorem value_neg_iff (hx : value x ≠ 0) : value x < 0 ↔ isNegative x = true := by
  have hsize := abs_pos.mpr hx
  rw [abs_value] at hsize
  rw [value, signedBy]
  cases isNegative x <;> simp [hsize, hsize.le]

theorem WellShaped.minusZero_iff (h : WellShaped x s) :
    MinusZero s ↔ value x < 0 ∧ 2 * |value x| ≤ (10 ^ 6)⁻¹ := by
  cases h with
  | @whole n l hx hn hs hl hv =>
    rw [hx, hs, minusZero_literal, hv]
    refine iff_of_false ?_ (not_small_of_intCast n)
    rintro ⟨hneg, hzero⟩
    have hneg : n < 0 := of_decide_eq_true hneg
    have hzero : n.natAbs = 0 := by exact_mod_cast hzero
    omega
  | @power n l c e d hx hn hs hl hc hd hw hv hr =>
    rw [hx]
    refine iff_of_false ?_ (not_small_of_intCast n)
    rintro ⟨-, hzeros⟩
    have hdigit : c.isDigit = true := NumberFormat.isDigit_whole l c (by simp [hc.1])
    have hmem : c ∈ s := by simp [hs, NumberFormat.text_eq, hc.1]
    exact hc.2 (hzeros c hmem hdigit)
  | @fraction l v hx hs hl hv hr hz =>
    have hne : value x ≠ 0 := by exact_mod_cast hx 0
    have hvalue : v = 0 ↔ l.decimal.value = 0 := by
      rw [hs, NumberFormat.denoted?_literal] at hv
      rw [← Option.some.inj hv, ← abs_eq_zero, abs_signedBy _ l.decimal.value_nonneg]
    rw [hs, minusZero_literal, ← hvalue, hr.eq_zero_iff, value_neg_iff hne]

theorem IsTrimmed.text_of_value_eq_zero {places : Nat} {l : Literal} (h : IsTrimmed places l)
    (hzero : l.decimal.value = 0) : l.text = ['0'] := by
  have hdigits : ∀ c ∈ l.whole ++ l.fraction?.getD [], c = '0' := by
    rw [← ofDigitChars_eq_zero_iff l.isDigit, ← Literal.digits, ← Decimal.ofDigits_map]
    exact Decimal.digits_eq_zero_iff.mpr hzero
  obtain ⟨hwhole, hplaces⟩ := List.forall_mem_append.mp hdigits
  have hnone : l.fraction? = none := by
    cases hf : l.fraction? with
    | none => rfl
    | some ds =>
      obtain ⟨hne, -, hlast⟩ := h.fraction ds hf
      rw [hf] at hplaces
      rw [List.getLast?_eq_some_getLast hne, hplaces _ (List.getLast_mem hne)] at hlast
      exact absurd rfl hlast
  have hfront : l.whole.head? = some '0' := by
    obtain ⟨c, rest, hcons⟩ := List.exists_cons_of_ne_nil h.whole
    rw [hcons, List.head?_cons, hwhole c (by simp [hcons])]
  rw [Literal.text, hnone]
  exact h.front hfront

theorem WellShaped.eq_of_minusZero (h : WellShaped x s) (hminus : MinusZero s) :
    s = ['-', '0'] := by
  have hsmall := h.minusZero_iff.mp hminus
  cases h with
  | whole hx | power hx =>
    rw [hx] at hsmall
    exact absurd hsmall (not_small_of_intCast _)
  | fraction _ hs hl =>
    rw [hs, minusZero_literal] at hminus
    rw [hs, hminus.1, hl.text_of_value_eq_zero hminus.2]
    rfl

theorem ofDecimal_congr {d d' : Decimal} (h : d.value = d'.value) (negative : Bool) :
    ofDecimal negative d = ofDecimal negative d' := by
  rw [Decimal.value_eq_div, Decimal.value_eq_div] at h
  have hle := nearestBits_mono d.den_pos d'.den_pos h.le
  have hge := nearestBits_mono d'.den_pos d.den_pos h.ge
  rw [ofDecimal_eq, ofDecimal_eq, le_antisymm hle hge]

theorem canonicalText_ofDecimal_zero {d : Decimal} (h : d.value = 0) (negative : Bool) :
    canonicalText (ofDecimal negative d) = ['0'] := by
  have hdigits := Decimal.digits_eq_zero_iff.mpr h
  have hword : bits (ofDecimal negative d) % 2 ^ 63 = 0 := by
    rw [ofDecimal_eq, word_ofMagnitude negative (nearestBits_le _ _), Decimal.num, hdigits,
      Nat.zero_mul, nearestBits_zero d.den_pos]
  refine canonicalText_of_zero (units_eq_zero_iff.mpr hword) ?_
  rw [isFinite_iff_bits, hword]
  decide

theorem canonicalText_of_read? {z w : Float} (hz : read? s = some z) (hw : read? t = some w)
    (h : denoted? s = denoted? t) : canonicalText z = canonicalText w := by
  obtain ⟨⟨negative, d⟩, hs, rfl⟩ := Option.map_eq_some_iff.mp hz
  obtain ⟨⟨negative', d'⟩, ht, rfl⟩ := Option.map_eq_some_iff.mp hw
  rw [denoted?, denoted?, hs, ht, Option.map_some, Option.map_some, Option.some.injEq] at h
  obtain ⟨hvalue, hsign⟩ := signedBy_inj d.value_nonneg d'.value_nonneg h
  dsimp only at hvalue hsign ⊢
  rw [ofDecimal_congr hvalue negative]
  by_cases hzero : d.value = 0
  · have hzero' : d'.value = 0 := hvalue ▸ hzero
    rw [canonicalText_ofDecimal_zero hzero', canonicalText_ofDecimal_zero hzero']
  · rw [hsign hzero]

theorem canonicalText_inj (hx : x.isFinite = true) (hy : y.isFinite = true)
    (hminus : canonicalText x ≠ ['-', '0']) (hminus' : canonicalText y ≠ ['-', '0'])
    (h : denoted? (canonicalText x) = denoted? (canonicalText y)) :
    canonicalText x = canonicalText y := by
  obtain ⟨z, hz, -, hsame⟩ := exists_reread hx hminus
  obtain ⟨w, hw, -, hsame'⟩ := exists_reread hy hminus'
  rw [← hsame, ← hsame', canonicalText_of_read? hz hw h]

theorem canonicalText_eq_iff (hx : x.isFinite = true) (hy : y.isFinite = true)
    (h : denoted? (canonicalText y) = denoted? (canonicalText x)) :
    canonicalText y = canonicalText x ↔
      (MinusZero (canonicalText y) ↔ MinusZero (canonicalText x)) := by
  have hminus {z : Float} (hz : z.isFinite = true) :
      MinusZero (canonicalText z) ↔ canonicalText z = ['-', '0'] := by
    have hzero : MinusZero ['-', '0'] := ⟨rfl, by simp⟩
    exact ⟨(wellShaped_canonicalText hz).eq_of_minusZero, fun h => h ▸ hzero⟩
  constructor
  · intro hsame
    rw [hsame]
  · rw [hminus hx, hminus hy]
    intro hboth
    by_cases hzero : canonicalText x = ['-', '0']
    · rw [hboth.mpr hzero, hzero]
    · exact canonicalText_inj hy hx (fun h => hzero (hboth.mp h)) hzero h

end Double

open Double (IsShortest value)
open NumberFormat (plain)

/-- A text is a zero with a minus just when the number is negative and rounds to zero: in a cell it
is at most half of a millionth away, in a format less than half of the last place, and to a format a
negative zero is negative too. Two texts in a cell, or in one format, that denote the same number
are the same unless just one of them is a zero with a minus. -/
theorem shown_minusZero {x : Float} (hx : x.isFinite = true) :
    (∃ s v, (Cell.number x).toText = .ok s ∧ denoted? s.toList = some v ∧
      (MinusZero s.toList ↔ value x < 0 ∧ 2 * |value x| ≤ (10 ^ 6)⁻¹) ∧
      ∀ (y : Float) (t : String), y.isFinite = true → (Cell.number y).toText = .ok t →
        denoted? t.toList = some v → (t = s ↔ (MinusZero t.toList ↔ MinusZero s.toList))) ∧
    ∀ f : NumberFormat, f ≠ .auto → NumberFormat.forShowing? f.name = some f ∧
      ∃ s v d, f.showDouble x = .ok s ∧ denoted? (plain s.toList) = some v ∧ IsShortest x d ∧
        (MinusZero s.toList ↔ Double.isNegative x = true ∧
          2 * (d.value * if f.percent then 100 else 1) < (10 ^ f.places)⁻¹) ∧
        ∀ (y : Float) (t : String), y.isFinite = true → f.showDouble y = .ok t →
          denoted? (plain t.toList) = some v →
            (t = s ↔ (MinusZero t.toList ↔ MinusZero s.toList)) := by
  constructor
  · have hshape := Double.wellShaped_canonicalText hx
    have hdenoted := Double.denoted?_canonicalText hx
    refine ⟨_, _, rfl, by rw [String.toList_ofList, hdenoted], ?_, ?_⟩
    · rw [String.toList_ofList, hshape.minusZero_iff]
    · intro y t hy ht hv
      obtain rfl := Except.ok.inj ht
      rw [String.toList_ofList] at hv ⊢
      rw [String.toList_ofList, ← Double.canonicalText_eq_iff hx hy (hv.trans hdenoted.symm)]
      exact ⟨fun h => String.ofList_injective h, congrArg String.ofList⟩
  · intro f hf
    have hshortest := Double.isShortest_shortest hx
    have hshown := NumberFormat.showDouble_eq hx f
    have hdenoted := NumberFormat.denoted?_shown f (Double.isNegative x) (f.shownCount x)
    refine ⟨NumberFormat.forShowing?_name hf, _, _, _, hshown,
      by rw [String.toList_ofList, hdenoted], hshortest, ?_, ?_⟩
    · rw [String.toList_ofList, NumberFormat.minusZero_shown, Decimal.decimal_placedLiteral,
        ← NumberFormat.shownCount_eq_zero_iff hx hshortest]
    · intro y t hy ht hv
      refine NumberFormat.shownDouble_eq_iff hx hy hshown ht ?_
      rw [hv, String.toList_ofList, hdenoted]

theorem shown_minusZero_places :
    Float.isFinite (-0.004) = true ∧ (Cell.number (-0.004)).toText = .ok "-0.004" ∧
      NumberFormat.fixed2.showDouble (-0.004) = .ok "-0.00" ∧ MinusZero "-0.00".toList ∧
      ¬ (value (-0.004) < 0 ∧ 2 * |value (-0.004)| ≤ (10 ^ 6)⁻¹) := by
  have hfinite : Float.isFinite (-0.004) = true := by decide
  have htext : (Cell.number (-0.004)).toText = .ok "-0.004" := by decide +kernel
  obtain ⟨⟨s, v, hs, -, hminus, -⟩, -⟩ := @shown_minusZero (-0.004) hfinite
  obtain rfl : "-0.004" = s := Except.ok.inj (htext.symm.trans hs)
  refine ⟨hfinite, htext, by decide +kernel, by decide +kernel, ?_⟩
  rw [← hminus]
  decide +kernel

theorem shown_minusZero_tiny :
    (Cell.number (-1e-7)).toText = .ok "-0" ∧ MinusZero "-0".toList ∧
      (Cell.number 1e-7).toText = .ok "0" ∧
      NumberFormat.fixed2.showDouble (-0.001) = .ok "-0.00" ∧ MinusZero "-0.00".toList ∧
      NumberFormat.fixed2.showDouble 0.001 = .ok "0.00" := by
  decide +kernel

end FormulaTable
