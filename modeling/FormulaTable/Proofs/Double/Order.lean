import FormulaTable.Proofs.Double.Shortest

/-!
# The order of doubles

Finite doubles are in the order of the numbers that they stand for, and rounding to the nearest
double keeps the order. So what lies between two decimals that read back as one double reads back as
that double too.
-/

namespace FormulaTable

def signedBy (negative : Bool) (q : ℚ) : ℚ := if negative then -q else q

namespace Double
open Float.Model (Format UnpackedFloat)
open Float.Model.UnpackedFloat

variable {b : BitVec Format.binary64.numBits}

theorem toNat_unpackSign : (unpackSign b).toNat = b.toNat / 2 ^ 63 % 2 := by
  simp [unpackSign, BitVec.extractLsb, BitVec.extractLsb'_toNat, Nat.shiftRight_eq_div_pow]

def signOf (w : Nat) : Sign := if 2 ^ 63 ≤ w then .negative else .positive

theorem ofBitVec_unpackSign : Sign.ofBitVec (unpackSign b) = signOf b.toNat := by
  have hsign : unpackSign b = 0#1 ↔ b.toNat / 2 ^ 63 % 2 = 0 := by
    rw [← BitVec.toNat_inj, toNat_unpackSign]
    rfl
  have hb : b.toNat < 2 ^ 64 := b.isLt
  unfold Sign.ofBitVec signOf
  by_cases hlow : 2 ^ 63 ≤ b.toNat
  · rw [if_pos hlow, if_neg (by rw [hsign]; omega)]
  · rw [if_neg hlow, if_pos (by rw [hsign]; omega)]

/-- `Fields w u`: the word `w` of a finite double has the sign, the exponent and the significand of
`u`, and the significand is in the binade of the exponent. -/
inductive Fields (w : Nat) : UnpackedFloat → Prop
  | zero {s : Sign} (hs : s = signOf w) (hw : w % 2 ^ 63 = 0) : Fields w (.zero s)
  | finite {s : Sign} {m k : Nat} {e : Int} {hm : 0 < m} (hs : s = signOf w)
      (hlt : m < 2 ^ 53) (hk : k = 0 ∨ 2 ^ 52 ≤ m) (hw : w % 2 ^ 63 = k * 2 ^ 52 + m)
      (he : e = k - finestPlace) : Fields w (.finite s m e hm)

theorem fields_unpack (htop : ¬ unpackExponent b = -1#11) :
    Fields b.toNat (unpack Format.binary64 b) := by
  have hexponent := toNat_unpackExponent (b := b)
  have hmantissa := toNat_unpackMantissa (b := b)
  have hb : b.toNat < 2 ^ 64 := b.isLt
  have hplaces : finestPlace = 1074 := rfl
  have hbias : Format.binary64.exponentBias = 1023 := rfl
  have hzero (h : unpackExponent b = 0#11) : (unpackExponent b).toNat = 0 := by
    rw [h]
    rfl
  fun_cases unpack with
  | case1 _ _ _ _ h => exact absurd h htop
  | case2 _ _ h => exact absurd h htop
  | case3 _ _ _ _ _ he hm =>
    have hm : (unpackMantissa b).toNat = 0 := congrArg BitVec.toNat hm
    have he := hzero he
    exact .zero ofBitVec_unpackSign (by omega)
  | case4 _ _ exponent _ _ _ he hm =>
    have he := hzero he
    refine .finite (m := (unpackMantissa b).toNat) (k := 0) ofBitVec_unpackSign (by omega)
      (.inl rfl) (by omega) ?_
    change ((unpackExponent b).toNat : Int) - (1023 + 52) + 1 = _
    omega
  | case5 _ _ _ _ _ _ he =>
    have hm : (1#1 ++ unpackMantissa b).toNat = 2 ^ 52 + (unpackMantissa b).toNat := by
      rw [BitVec.toNat_append, ← Nat.shiftLeft_add_eq_or_of_lt (unpackMantissa b).isLt,
        Nat.shiftLeft_eq]
      rfl
    have he : (unpackExponent b).toNat ≠ 0 := fun h => he (BitVec.eq_of_toNat_eq h)
    refine .finite (k := (unpackExponent b).toNat - 1) ofBitVec_unpackSign ?_ (.inr ?_) ?_ ?_
    · rw [hm]
      omega
    · rw [hm]
      omega
    · rw [hm]
      omega
    · change ((unpackExponent b).toNat : Int) - (1023 + 52) = _
      omega

def InOrder (w w' : Nat) : Sign → Sign → Prop
  | .positive, .positive => w % 2 ^ 63 ≤ w' % 2 ^ 63
  | .negative, .negative => w' % 2 ^ 63 ≤ w % 2 ^ 63
  | .positive, .negative => w % 2 ^ 63 = 0 ∧ w' % 2 ^ 63 = 0
  | .negative, .positive => True

theorem compare_fields {w w' m m' k k' : Nat} (hlt : m < 2 ^ 53) (hlt' : m' < 2 ^ 53)
    (hk : k = 0 ∨ 2 ^ 52 ≤ m) (hk' : k' = 0 ∨ 2 ^ 52 ≤ m')
    (hw : w % 2 ^ 63 = k * 2 ^ 52 + m) (hw' : w' % 2 ^ 63 = k' * 2 ^ 52 + m') :
    (compare ((k : Int) - finestPlace) (k' - finestPlace)).then (compare m m') =
      compare (w % 2 ^ 63) (w' % 2 ^ 63) := by
  rcases Nat.lt_trichotomy k k' with h | rfl | h
  · have hexponents : compare ((k : Int) - finestPlace) (k' - finestPlace) = .lt :=
      compare_lt_iff_lt.mpr (by omega)
    have hwords : compare (w % 2 ^ 63) (w' % 2 ^ 63) = .lt := compare_lt_iff_lt.mpr (by omega)
    rw [hexponents, hwords]
    rfl
  · have hexponents : compare ((k : Int) - finestPlace) (k - finestPlace) = .eq :=
      compare_eq_iff_eq.mpr rfl
    rw [hexponents, hw, hw']
    rcases Nat.lt_trichotomy m m' with h | rfl | h
    · have hsum : k * 2 ^ 52 + m < k * 2 ^ 52 + m' := by omega
      rw [compare_lt_iff_lt.mpr h, compare_lt_iff_lt.mpr hsum]
      rfl
    · rw [compare_eq_iff_eq.mpr rfl, compare_eq_iff_eq.mpr rfl]
      rfl
    · have hsum : k * 2 ^ 52 + m' < k * 2 ^ 52 + m := by omega
      rw [compare_gt_iff_gt.mpr h, compare_gt_iff_gt.mpr hsum]
      rfl
  · have hexponents : compare ((k : Int) - finestPlace) (k' - finestPlace) = .gt :=
      compare_gt_iff_gt.mpr (by omega)
    have hwords : compare (w % 2 ^ 63) (w' % 2 ^ 63) = .gt := compare_gt_iff_gt.mpr (by omega)
    rw [hexponents, hwords]
    rfl

theorem Fields.inOrder {w w' : Nat} {u u' : UnpackedFloat} (hu : Fields w u) (hu' : Fields w' u')
    (h : u.le u' = true) : InOrder w w' (signOf w) (signOf w') := by
  cases hu with
  | @zero s hs hw =>
    cases hu' with
    | @zero s' hs' hw' =>
      rw [← hs, ← hs', InOrder.eq_def]
      cases s <;> cases s' <;> simp [hw, hw']
    | @finite s' _ _ _ _ hs' =>
      rw [← hs, ← hs', InOrder.eq_def]
      clear hs hs'
      cases s' with
      | negative => cases h
      | positive => cases s <;> simp [hw]
  | @finite s m k e hm hs hlt hk hw he =>
    cases hu' with
    | @zero s' hs' hw' =>
      rw [← hs, ← hs', InOrder.eq_def]
      clear hs hs'
      cases s with
      | negative => cases s' <;> simp [hw']
      | positive => cases h
    | @finite s' m' k' e' hm' hs' hlt' hk' hw' he' =>
      have hcompare := compare_fields hlt hlt' hk hk' hw hw'
      rw [← hs, ← hs']
      subst he he'
      clear hs hs'
      cases s <;> cases s'
      · have hle : ((compare ((k : Int) - finestPlace) (k' - finestPlace)).then
            (compare m m')).swap.isLE = true := h
        rw [hcompare, Ordering.isLE_swap, Nat.isGE_compare] at hle
        exact hle
      · trivial
      · cases h
      · have hle : ((compare ((k : Int) - finestPlace) (k' - finestPlace)).then
            (compare m m')).isLE = true := h
        rw [hcompare, Nat.isLE_compare] at hle
        exact hle

section Order
variable {x y : Float}

theorem units_le_units_iff : units x ≤ units y ↔ bits x % 2 ^ 63 ≤ bits y % 2 ^ 63 := by
  rw [units_eq, units_eq, unitsOf_strictMono.le_iff_le]

theorem inOrder_of_le (hx : x.isFinite = true) (hy : y.isFinite = true) (h : x ≤ y) :
    InOrder (bits x) (bits y) (signOf (bits x)) (signOf (bits y)) := by
  have hle : x.toModel.unpack.le y.toModel.unpack = true := of_decide_eq_true h
  have hfields := fields_unpack (isFinite_unpack.mp hx)
  have hfields' := fields_unpack (isFinite_unpack.mp hy)
  exact hfields.inOrder hfields' hle

theorem signedBy_le_of_le {s : Float → ℚ}
    (hmono : ∀ x y, x.isFinite = true → y.isFinite = true → bits x % 2 ^ 63 ≤ bits y % 2 ^ 63 →
      s x ≤ s y)
    (hzero : ∀ x, units x = 0 → s x = 0) (hx : x.isFinite = true) (hy : y.isFinite = true)
    (h : x ≤ y) : signedBy (isNegative x) (s x) ≤ signedBy (isNegative y) (s y) := by
  have horder := inOrder_of_le hx hy h
  have hnonneg {z : Float} (hz : z.isFinite = true) : 0 ≤ s z := by
    have hunits : units 0 = 0 := by decide
    rw [← hzero 0 hunits]
    exact hmono 0 z (by decide) hz (units_le_units_iff.mp (by omega))
  unfold signedBy isNegative
  unfold signOf at horder
  by_cases hnx : 2 ^ 63 ≤ bits x <;> by_cases hny : 2 ^ 63 ≤ bits y <;>
    simp only [hnx, hny, if_true, if_false, decide_true, decide_false, InOrder] at horder ⊢
  · exact neg_le_neg (hmono y x hy hx horder)
  · simpa using (neg_nonpos.mpr (hnonneg hx)).trans (hnonneg hy)
  · rw [hzero x (units_eq_zero_iff.mpr horder.1), hzero y (units_eq_zero_iff.mpr horder.2)]
    simp
  · simpa using hmono x y hx hy horder

end Order

theorem Between.mono {num den num' den' b b' : Nat} (hb : Between num den b)
    (hb' : Between num' den' b') (hd : 0 < den) (hd' : 0 < den')
    (h : num * den' ≤ num' * den) : b ≤ b' := by
  by_contra hlt
  rw [Nat.not_le] at hlt
  -- Both quotients are at the midpoint of the two words, and only one of these is even.
  have hlow := Nat.mul_le_mul_right den' (hb.middle_le hlt)
  have hhigh := Nat.mul_le_mul_right den (hb'.le_middle hlt)
  have hcomm (n : Nat) : n * den' * den = n * den * den' := Nat.mul_right_comm ..
  have hassoc (n m : Nat) : 2 * n * m = 2 * (n * m) := Nat.mul_assoc ..
  rw [hassoc] at hlow hhigh
  rw [hcomm] at hhigh
  have htie : (unitsOf b' + unitsOf b) * den = 2 * num := by
    refine Nat.eq_of_mul_eq_mul_right hd' ?_
    rw [hassoc]
    omega
  have htie' : 2 * num' = (unitsOf b' + unitsOf b) * den' := by
    refine Nat.eq_of_mul_eq_mul_right hd ?_
    rw [hassoc, hcomm]
    omega
  have hnext : b = b' + 1 := by
    by_contra hne
    have hbelow := hb.below (b - 1) (by omega)
    rw [← htie] at hbelow
    have hunits := Nat.le_of_mul_le_mul_right hbelow hd
    have hless : unitsOf b' < unitsOf (b - 1) := unitsOf_strictMono (by omega)
    omega
  subst hnext
  have heven : 2 ∣ b' + 1 := hb.tieBelow b' rfl htie
  have heven' : 2 ∣ b' := hb'.tieAbove htie'
  omega

theorem nearestBits_mono {num den num' den' : Nat} (hd : 0 < den) (hd' : 0 < den')
    (h : (num : ℚ) / den ≤ num' / den') : nearestBits num den ≤ nearestBits num' den' := by
  have hpos : (0 : ℚ) < den := by exact_mod_cast hd
  have hpos' : (0 : ℚ) < den' := by exact_mod_cast hd'
  rw [div_le_div_iff₀ hpos hpos'] at h
  have hscaled : num * unitsPerOne * den' ≤ num' * unitsPerOne * den := by
    have hle : num * den' ≤ num' * den := by exact_mod_cast h
    rw [Nat.mul_right_comm, Nat.mul_right_comm num']
    exact Nat.mul_le_mul_right unitsPerOne hle
  have hword := (between_roundedWord (num * unitsPerOne) hd).mono
    (between_roundedWord (num' * unitsPerOne) hd') hd hd' hscaled
  rw [nearestBits_eq_min, nearestBits_eq_min]
  omega

namespace ReadsBack
variable {x y : Float} {d d' between : Decimal}

theorem value_lt_of_lt (h : ReadsBack x d) (h' : ReadsBack y d')
    (hlt : bits x % 2 ^ 63 < bits y % 2 ^ 63) : d.value < d'.value := by
  by_contra hge
  rw [not_lt, Decimal.value_eq_div, Decimal.value_eq_div] at hge
  have hle := nearestBits_mono d'.den_pos d.den_pos hge
  rw [ReadsBack] at h h'
  omega

theorem of_between (h : ReadsBack x d) (h' : ReadsBack x d') (hle : d.value ≤ between.value)
    (hle' : between.value ≤ d'.value) : ReadsBack x between := by
  rw [Decimal.value_eq_div, Decimal.value_eq_div] at hle hle'
  have hlow := nearestBits_mono d.den_pos between.den_pos hle
  have hhigh := nearestBits_mono between.den_pos d'.den_pos hle'
  rw [ReadsBack] at h h' ⊢
  omega

end ReadsBack

def exact (x : Float) : Decimal := ⟨units x * 5 ^ finestPlace, -finestPlace⟩

theorem value_exact (x : Float) : (exact x).value = magnitude x := by
  have hten : (10 : ℚ) ^ finestPlace = 5 ^ finestPlace * unitsPerOne := by
    rw [unitsPerOne, Nat.cast_pow, ← mul_pow]
    norm_num
  have hfive : (5 : ℚ) ^ finestPlace ≠ 0 := pow_ne_zero _ (by norm_num)
  rw [Decimal.value, exact, magnitude, zpow_neg, zpow_natCast, hten, ← div_eq_mul_inv]
  push_cast
  rw [mul_comm (units x : ℚ), mul_div_mul_left _ _ hfive]

theorem readsBack_exact {x : Float} (hx : x.isFinite = true) : ReadsBack x (exact x) :=
  readsBack_of_value_eq hx (value_exact x)

end Double
end FormulaTable
