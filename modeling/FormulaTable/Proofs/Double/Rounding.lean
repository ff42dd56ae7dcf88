import FormulaTable.Proofs.Double.Word

/-!
# The nearest double

The magnitudes of the doubles, counted in units of `2 ^ (-1074)`, grow with their words, so a
double is nearest to a number just when the number lies between the midpoints to its neighbours.
Rounding a quotient finds that double, and of two equally near ones that with the even significand.
-/

namespace FormulaTable

namespace Rounding

theorem toEven_cases (num : Nat) {den : Nat} (h : 0 < den) :
    ∃ q r, num = q * den + r ∧ r < den ∧
      (2 * r < den ∧ toEven num den = q ∨ den < 2 * r ∧ toEven num den = q + 1 ∨
        2 ∣ toEven num den) := by
  refine ⟨num / den, num % den, ?_, Nat.mod_lt num h, ?_⟩
  · rw [Nat.mul_comm]
    exact (Nat.div_add_mod num den).symm
  · unfold toEven
    dsimp only
    split
    · next hlow => exact .inl ⟨hlow, rfl⟩
    · split
      · next hhigh => exact .inr (.inl ⟨hhigh, rfl⟩)
      · exact .inr (.inr (by omega))

theorem even_of_tie_above {num den : Nat} (h : 0 < den)
    (ht : 2 * num = (2 * toEven num den + 1) * den) : 2 ∣ toEven num den := by
  obtain ⟨q, r, hnum, hr, ⟨hlow, hq⟩ | ⟨hhigh, hq⟩ | heven⟩ := toEven_cases num h
  · have hodd : (2 * q + 1) * den = 2 * (q * den) + den := by ring
    rw [hq, hodd] at ht
    omega
  · have hodd : (2 * (q + 1) + 1) * den = 2 * (q * den) + 3 * den := by ring
    rw [hq, hodd] at ht
    omega
  · exact heven

theorem even_of_tie_below {num den : Nat} (h : 0 < den)
    (ht : 2 * toEven num den * den = 2 * num + den) : 2 ∣ toEven num den := by
  obtain ⟨q, r, hnum, hr, ⟨hlow, hq⟩ | ⟨hhigh, hq⟩ | heven⟩ := toEven_cases num h
  · have hdouble : 2 * q * den = 2 * (q * den) := by ring
    rw [hq, hdouble] at ht
    omega
  · have hdouble : 2 * (q + 1) * den = 2 * (q * den) + 2 * den := by ring
    rw [hq, hdouble] at ht
    omega
  · exact heven

theorem le_toEven {n num den : Nat} (h : 0 < den) (hn : n * den ≤ num) : n ≤ toEven num den := by
  by_contra hlt
  have hhalf := (toEven_within_half num h).1
  have hle : (toEven num den + 1) * den ≤ n * den := Nat.mul_le_mul_right den (by omega)
  have hodd : (2 * toEven num den + 1) * den = 2 * (toEven num den * den) + den := by ring
  have hsucc : (toEven num den + 1) * den = toEven num den * den + den := by ring
  omega

theorem toEven_le {n num den : Nat} (h : 0 < den) (hn : num ≤ n * den) : toEven num den ≤ n := by
  by_contra hlt
  have hhalf := (toEven_within_half num h).2
  have hle : (n + 1) * den ≤ toEven num den * den := Nat.mul_le_mul_right den (by omega)
  have hdouble : 2 * toEven num den * den = 2 * (toEven num den * den) := by ring
  have hsucc : (n + 1) * den = n * den + den := by ring
  omega

end Rounding

namespace Double

/-- The magnitude with the word `b` in units of `2 ^ (-1074)`; from infinity on, as if the binades
went on without end. -/
def unitsOf (b : Nat) : Nat :=
  if b < 2 ^ 52 then b else (2 ^ 52 + b % 2 ^ 52) * 2 ^ (b / 2 ^ 52 - 1)

theorem units_eq (x : Float) : units x = unitsOf (bits x % 2 ^ 63) := by
  have hmod : bits x % 2 ^ 63 % 2 ^ 52 = bits x % 2 ^ 52 := by omega
  have hdiv : bits x % 2 ^ 63 / 2 ^ 52 = bits x / 2 ^ 52 % 2 ^ 11 := by omega
  unfold units significand gap exponentField fraction unitsOf
  rw [hmod, hdiv]
  by_cases hlow : bits x / 2 ^ 52 % 2 ^ 11 = 0
  · rw [if_pos hlow, if_pos (by omega), hlow]
    omega
  · rw [if_neg hlow, if_neg (by omega)]

/-- `m` steps of `2 ^ k` units are in the binade of `k`, or at its upper end. -/
structure InBinade (k m : Nat) : Prop where
  le : m ≤ 2 ^ 53
  normal : k = 0 ∨ 2 ^ 52 ≤ m

theorem exists_binade (b : Nat) : ∃ k m, InBinade k m ∧ m < 2 ^ 53 ∧ b = k * 2 ^ 52 + m := by
  by_cases hb : b < 2 ^ 52
  · exact ⟨0, b, ⟨by omega, .inl rfl⟩, by omega, by omega⟩
  · exact ⟨b / 2 ^ 52 - 1, 2 ^ 52 + b % 2 ^ 52, ⟨by omega, .inr (by omega)⟩, by omega, by omega⟩

theorem unitsOf_binade {k m : Nat} (h : InBinade k m) :
    unitsOf (k * 2 ^ 52 + m) = m * 2 ^ k := by
  obtain ⟨hle, hnormal⟩ := h
  unfold unitsOf
  by_cases hlow : m < 2 ^ 52
  · have hk : k = 0 := by omega
    subst hk
    rw [if_pos (by omega)]
    omega
  · rw [if_neg (by omega)]
    by_cases htop : m < 2 ^ 53
    · have hexp : (k * 2 ^ 52 + m) / 2 ^ 52 - 1 = k := by omega
      have hm : 2 ^ 52 + (k * 2 ^ 52 + m) % 2 ^ 52 = m := by omega
      rw [hexp, hm]
    · have hexp : (k * 2 ^ 52 + m) / 2 ^ 52 - 1 = k + 1 := by omega
      have hm : 2 ^ 52 + (k * 2 ^ 52 + m) % 2 ^ 52 = 2 ^ 52 := by omega
      have htop : m = 2 ^ 52 * 2 := by omega
      have hpow : 2 ^ (k + 1) = 2 * 2 ^ k := Nat.pow_succ'
      rw [hexp, hm, htop, hpow, Nat.mul_assoc]

theorem le_unitsOf_succ {k m : Nat} (h : InBinade k m) :
    (m + 1) * 2 ^ k ≤ unitsOf (k * 2 ^ 52 + m + 1) := by
  obtain ⟨hle, hnormal⟩ := h
  by_cases htop : m < 2 ^ 53
  · have hnext : InBinade k (m + 1) := ⟨by omega, by omega⟩
    have hunits := unitsOf_binade hnext
    rw [← Nat.add_assoc] at hunits
    exact hunits.ge
  · have hnext : InBinade (k + 1) (2 ^ 52 + 1) := ⟨by omega, by omega⟩
    have hword : k * 2 ^ 52 + m + 1 = (k + 1) * 2 ^ 52 + (2 ^ 52 + 1) := by omega
    have hpow : 2 ^ (k + 1) = 2 * 2 ^ k := Nat.pow_succ'
    rw [hword, unitsOf_binade hnext, hpow, ← Nat.mul_assoc]
    exact Nat.mul_le_mul_right _ (by omega)

theorem unitsOf_lt_succ (b : Nat) : unitsOf b < unitsOf (b + 1) := by
  obtain ⟨k, m, hkm, -, rfl⟩ := exists_binade b
  calc unitsOf (k * 2 ^ 52 + m) = m * 2 ^ k := unitsOf_binade hkm
    _ < (m + 1) * 2 ^ k := Nat.mul_lt_mul_of_pos_right (by omega) (Nat.two_pow_pos k)
    _ ≤ unitsOf (k * 2 ^ 52 + m + 1) := le_unitsOf_succ hkm

theorem unitsOf_strictMono : StrictMono unitsOf := strictMono_nat_of_lt_succ unitsOf_lt_succ

theorem unitsOf_pred {k m a : Nat} (h : InBinade k m) (ha : a + 1 = k * 2 ^ 52 + m) :
    unitsOf a + 2 ^ k = m * 2 ^ k ∨ k ≠ 0 ∧ m = 2 ^ 52 ∧ unitsOf a ≤ m * 2 ^ k := by
  obtain ⟨hle, hnormal⟩ := id h
  by_cases hsame : k = 0 ∨ 2 ^ 52 < m
  · left
    obtain ⟨n, rfl⟩ : ∃ n, m = n + 1 := ⟨m - 1, by omega⟩
    have hword : a = k * 2 ^ 52 + n := by omega
    rw [hword, unitsOf_binade ⟨by omega, by omega⟩]
    ring
  · right
    have hmono : unitsOf a ≤ unitsOf (k * 2 ^ 52 + m) := unitsOf_strictMono.monotone (by omega)
    rw [unitsOf_binade h] at hmono
    exact ⟨by omega, by omega, hmono⟩

/-- `num / den` units are no farther from the word `b` than the midpoints to its neighbours, and
at a midpoint only if `b` is even. -/
structure Between (num den b : Nat) : Prop where
  above : 2 * num ≤ (unitsOf b + unitsOf (b + 1)) * den
  below : ∀ a, a + 1 = b → (unitsOf a + unitsOf b) * den ≤ 2 * num
  tieAbove : 2 * num = (unitsOf b + unitsOf (b + 1)) * den → 2 ∣ b
  tieBelow : ∀ a, a + 1 = b → (unitsOf a + unitsOf b) * den = 2 * num → 2 ∣ b

/-- The word of `num / den` units, rounded in the binade of the quotient. -/
def roundedWord (num den : Nat) : Nat :=
  let shift := (num / den).log2 - 52
  shift * 2 ^ 52 + Rounding.toEven num (den * 2 ^ shift)

theorem nearestBits_eq_min (num den : Nat) :
    nearestBits num den = min infinityBits (roundedWord (num * unitsPerOne) den) := rfl

theorem le_of_log2_shift {num den shift : Nat} (h : 0 < den)
    (hs : shift = (num / den).log2 - 52) :
    num ≤ 2 ^ 53 * (den * 2 ^ shift) ∧ (shift = 0 ∨ 2 ^ 52 * (den * 2 ^ shift) ≤ num) := by
  have hcomm (n : Nat) : n * (den * 2 ^ shift) = n * 2 ^ shift * den := by ring
  constructor
  · have hq : num / den < 2 ^ ((num / den).log2 + 1) := Nat.lt_log2_self
    have hpow : 2 ^ ((num / den).log2 + 1) ≤ 2 ^ 53 * 2 ^ shift := by
      rw [← Nat.pow_add]
      exact Nat.pow_le_pow_right (by decide) (by omega)
    rw [hcomm]
    exact ((Nat.div_lt_iff_lt_mul h).mp (hq.trans_le hpow)).le
  · by_cases hzero : shift = 0
    · exact .inl hzero
    · have hne : num / den ≠ 0 := by
        intro h0
        rw [h0] at hs
        simp at hs
        omega
      have hq : 2 ^ (num / den).log2 ≤ num / den := Nat.log2_self_le hne
      have hpow : 2 ^ (num / den).log2 = 2 ^ 52 * 2 ^ shift := by
        rw [← Nat.pow_add]
        congr 1
        omega
      right
      rw [hcomm, ← hpow]
      exact (Nat.le_div_iff_mul_le h).mp hq

theorem between_roundedWord (num : Nat) {den : Nat} (h : 0 < den) :
    Between num den (roundedWord num den) := by
  unfold roundedWord
  dsimp only
  generalize hs : (num / den).log2 - 52 = shift
  have hstep : 0 < den * 2 ^ shift := Nat.mul_pos h (Nat.two_pow_pos shift)
  obtain ⟨hupper, hlower⟩ := le_of_log2_shift h hs.symm
  obtain ⟨hhigh, hlow⟩ := Rounding.toEven_within_half num hstep
  have heven := @Rounding.even_of_tie_above num _ hstep
  have heven' := @Rounding.even_of_tie_below num _ hstep
  have hle : Rounding.toEven num (den * 2 ^ shift) ≤ 2 ^ 53 := Rounding.toEven_le hstep hupper
  have hnormal : shift = 0 ∨ 2 ^ 52 ≤ Rounding.toEven num (den * 2 ^ shift) :=
    hlower.imp id (Rounding.le_toEven hstep)
  generalize Rounding.toEven num (den * 2 ^ shift) = m at *
  have hb := unitsOf_binade ⟨hle, hnormal⟩
  have hgrid (n : Nat) : n * 2 ^ shift * den = n * (den * 2 ^ shift) := by ring
  have hnext : (2 * m + 1) * (den * 2 ^ shift) ≤
      (unitsOf (shift * 2 ^ 52 + m) + unitsOf (shift * 2 ^ 52 + m + 1)) * den := by
    rw [← hgrid, hb]
    refine Nat.mul_le_mul_right den ?_
    have hsucc := le_unitsOf_succ ⟨hle, hnormal⟩
    calc (2 * m + 1) * 2 ^ shift = m * 2 ^ shift + (m + 1) * 2 ^ shift := by ring
      _ ≤ m * 2 ^ shift + unitsOf (shift * 2 ^ 52 + m + 1) := by omega
  have hprev : ∀ a, a + 1 = shift * 2 ^ 52 + m →
      (unitsOf a + unitsOf (shift * 2 ^ 52 + m)) * den + den * 2 ^ shift =
        2 * m * (den * 2 ^ shift) ∨
      2 ∣ m ∧ (unitsOf a + unitsOf (shift * 2 ^ 52 + m)) * den ≤ 2 * num := by
    intro a ha
    rw [hb]
    rcases unitsOf_pred ⟨hle, hnormal⟩ ha with hsame | ⟨hk, hm, hbefore⟩
    · left
      calc (unitsOf a + m * 2 ^ shift) * den + den * 2 ^ shift
          = (unitsOf a + 2 ^ shift + m * 2 ^ shift) * den := by ring
        _ = 2 * m * (den * 2 ^ shift) := by rw [hsame]; ring
    · right
      have hnum : m * (den * 2 ^ shift) ≤ num := by
        rw [hm]
        exact hlower.resolve_left hk
      refine ⟨by omega, ?_⟩
      calc (unitsOf a + m * 2 ^ shift) * den
          ≤ (2 * m) * 2 ^ shift * den := Nat.mul_le_mul_right den (by rw [Nat.mul_assoc]; omega)
        _ = 2 * (m * (den * 2 ^ shift)) := by ring
        _ ≤ 2 * num := by omega
  refine ⟨hhigh.trans hnext, ?_, ?_, ?_⟩
  · intro a ha
    rcases hprev a ha with hp | ⟨-, hp⟩ <;> omega
  · intro ht
    have hm : 2 ∣ m := heven (by omega)
    omega
  · intro a ha ht
    have hm : 2 ∣ m := by
      rcases hprev a ha with hp | ⟨hm, -⟩
      · exact heven' (by omega)
      · exact hm
    omega

section Nearest
variable {q a c : ℚ}

theorem abs_sub_le_of_le_middle (hac : a ≤ c) (h : 2 * q ≤ a + c) : |q - a| ≤ |q - c| := by
  have hle : |q - a| ≤ c - q := abs_le.mpr ⟨by linarith, by linarith⟩
  rw [abs_sub_comm q c]
  exact hle.trans (le_abs_self _)

theorem abs_sub_le_of_middle_le (hca : c ≤ a) (h : a + c ≤ 2 * q) : |q - a| ≤ |q - c| := by
  have hle : |q - a| ≤ q - c := abs_le.mpr ⟨by linarith, by linarith⟩
  exact hle.trans (le_abs_self _)

theorem eq_or_middle_of_abs_sub_eq (h : |q - a| = |q - c|) : a = c ∨ 2 * q = a + c := by
  rcases abs_eq_abs.mp h with h | h
  · exact .inl (by linarith)
  · exact .inr (by linarith)

end Nearest

namespace Between
variable {num den b : Nat}

theorem le_middle (h : Between num den b) {c : Nat} (hc : b < c) :
    2 * num ≤ (unitsOf b + unitsOf c) * den :=
  h.above.trans <| Nat.mul_le_mul_right den <|
    Nat.add_le_add_left (unitsOf_strictMono.monotone hc) _

theorem middle_le (h : Between num den b) {c : Nat} (hc : c < b) :
    (unitsOf c + unitsOf b) * den ≤ 2 * num := by
  have hprev : unitsOf c ≤ unitsOf (b - 1) := unitsOf_strictMono.monotone (by omega)
  exact (Nat.mul_le_mul_right den (by omega)).trans (h.below (b - 1) (by omega))

theorem abs_sub_le (h : Between num den b) (c : Nat) :
    |(num : ℚ) - (unitsOf b * den : Nat)| ≤ |(num : ℚ) - (unitsOf c * den : Nat)| := by
  rcases Nat.lt_trichotomy b c with hc | rfl | hc
  · have hle : unitsOf b * den ≤ unitsOf c * den :=
      Nat.mul_le_mul_right den (unitsOf_strictMono hc).le
    have hmiddle := h.le_middle hc
    rw [Nat.add_mul] at hmiddle
    exact abs_sub_le_of_le_middle (by exact_mod_cast hle) (by exact_mod_cast hmiddle)
  · exact le_rfl
  · have hle : unitsOf c * den ≤ unitsOf b * den :=
      Nat.mul_le_mul_right den (unitsOf_strictMono hc).le
    have hmiddle := h.middle_le hc
    rw [Nat.add_mul, Nat.add_comm] at hmiddle
    exact abs_sub_le_of_middle_le (by exact_mod_cast hle) (by exact_mod_cast hmiddle)

theorem even_of_tie (h : Between num den b) (hd : 0 < den) {c : Nat} (hc : c ≠ b)
    (ht : |(num : ℚ) - (unitsOf b * den : Nat)| = |(num : ℚ) - (unitsOf c * den : Nat)|) :
    2 ∣ b := by
  have hmiddle : 2 * num = unitsOf b * den + unitsOf c * den := by
    rcases eq_or_middle_of_abs_sub_eq ht with heq | hmid
    · have hunits : unitsOf b * den = unitsOf c * den := by exact_mod_cast heq
      have hword := unitsOf_strictMono.injective (Nat.eq_of_mul_eq_mul_right hd hunits)
      exact absurd hword.symm hc
    · exact_mod_cast hmid
  rcases Nat.lt_or_gt_of_ne hc with hlt | hlt
  · have hprev : unitsOf c ≤ unitsOf (b - 1) := unitsOf_strictMono.monotone (by omega)
    have hscaled := Nat.mul_le_mul_right den hprev
    have hbelow := h.below (b - 1) (by omega)
    refine h.tieBelow (b - 1) (by omega) ?_
    rw [Nat.add_mul] at hbelow ⊢
    omega
  · have hnext : unitsOf (b + 1) ≤ unitsOf c := unitsOf_strictMono.monotone hlt
    have hscaled := Nat.mul_le_mul_right den hnext
    have habove := h.above
    refine h.tieAbove ?_
    rw [Nat.add_mul] at habove ⊢
    omega

theorem lt_iff_lt_middle (h : Between num den b) (hd : 0 < den) {c : Nat} (hc : ¬ 2 ∣ c) :
    b < c + 1 ↔ 2 * num < (unitsOf c + unitsOf (c + 1)) * den := by
  constructor
  · intro hlt
    rcases Nat.lt_or_eq_of_le (Nat.le_of_lt_succ hlt) with hlt | rfl
    · have hb : unitsOf b < unitsOf c := unitsOf_strictMono hlt
      have hb' : unitsOf (b + 1) ≤ unitsOf c := unitsOf_strictMono.monotone hlt
      have hnext := unitsOf_lt_succ c
      exact h.above.trans_lt (Nat.mul_lt_mul_of_pos_right (by omega) hd)
    · exact Nat.lt_of_le_of_ne h.above fun ht => hc (h.tieAbove ht)
  · intro hlt
    by_contra hge
    have hmiddle := h.middle_le (c := c) (by omega)
    have hb : unitsOf (c + 1) ≤ unitsOf b := unitsOf_strictMono.monotone (by omega)
    have hscaled := Nat.mul_le_mul_right den (Nat.add_le_add_left hb (unitsOf c))
    omega

end Between

theorem unitsOf_add_infinity :
    unitsOf (infinityBits - 1) + unitsOf (infinityBits - 1 + 1) =
      2 * ((2 ^ 54 - 1) * 2 ^ 970 * unitsPerOne) := by
  have hlast : infinityBits - 1 = 2045 * 2 ^ 52 + (2 ^ 53 - 1) := rfl
  have hnext : infinityBits - 1 + 1 = 2045 * 2 ^ 52 + 2 ^ 53 := rfl
  have hplaces : 2045 = 970 + finestPlace + 1 := rfl
  have hsplit (m n : Nat) : 2 ^ (m + n + 1) = 2 * (2 ^ m * 2 ^ n) := by ring
  have hpow : 2 ^ 2045 = 2 * (2 ^ 970 * unitsPerOne) := by
    rw [hplaces, hsplit 970 finestPlace, unitsPerOne]
  rw [hnext, unitsOf_binade ⟨by omega, by omega⟩, hlast, unitsOf_binade ⟨by omega, by omega⟩, hpow]
  generalize 2 ^ 970 = step
  generalize unitsPerOne = one
  ring

theorem nearestBits_lt_infinity_iff (num : Nat) {den : Nat} (h : 0 < den) :
    nearestBits num den < infinityBits ↔ (num : ℚ) / den < 2 ^ 1024 - 2 ^ 970 := by
  have hodd : ¬ 2 ∣ infinityBits - 1 := by decide
  have hlt := (between_roundedWord (num * unitsPerOne) h).lt_iff_lt_middle h hodd
  rw [unitsOf_add_infinity] at hlt
  have hmin : nearestBits num den < infinityBits ↔
      roundedWord (num * unitsPerOne) den < infinityBits - 1 + 1 := by
    have hinfinity : infinityBits - 1 + 1 = infinityBits := rfl
    rw [nearestBits_eq_min, hinfinity]
    omega
  have hpow (k : Nat) : (2 : ℚ) ^ (54 + k) - 2 ^ k = ((2 ^ 54 - 1) * 2 ^ k : Nat) := by
    push_cast
    ring
  have hden : (0 : ℚ) < den := by exact_mod_cast h
  rw [hmin, hlt, hpow 970, div_lt_iff₀ hden]
  generalize (2 ^ 54 - 1) * 2 ^ 970 = bound
  have hscale : 2 * (num * unitsPerOne) < 2 * (bound * unitsPerOne) * den ↔ num < bound * den := by
    have hassoc : 2 * (bound * unitsPerOne) * den = 2 * unitsPerOne * (bound * den) := by ring
    have hassoc' : 2 * (num * unitsPerOne) = 2 * unitsPerOne * num := by ring
    rw [hassoc, hassoc']
    exact Nat.mul_lt_mul_left (Nat.mul_pos (by decide) unitsPerOne_pos)
  rw [hscale]
  exact_mod_cast Iff.rfl

theorem nearestBits_eq_zero {num den : Nat} (h : 0 < den)
    (hs : 2 * (num * unitsPerOne) < den) : nearestBits num den = 0 := by
  have hbetween := between_roundedWord (num * unitsPerOne) h
  have hzero : roundedWord (num * unitsPerOne) den = 0 := by
    by_contra hne
    have hmiddle := hbetween.middle_le (Nat.pos_of_ne_zero hne)
    have hpos := unitsOf_strictMono (Nat.pos_of_ne_zero hne)
    have hle : 1 * den ≤ (unitsOf 0 + unitsOf (roundedWord (num * unitsPerOne) den)) * den :=
      Nat.mul_le_mul_right den (by omega)
    omega
  rw [nearestBits_eq_min, hzero]
  rfl

def magnitude (x : Float) : ℚ := units x / unitsPerOne

/-- `x` has the magnitude nearest to `q` that a double can have; of two equally near ones that
with the even significand. From halfway beyond the greatest magnitude on it is infinite. -/
structure Rounds (q : ℚ) (x : Float) : Prop where
  finite : x.isFinite = true ↔ q < 2 ^ 1024 - 2 ^ 970
  infinite : x.isFinite = false → bits x % 2 ^ 63 = infinityBits
  nearest : x.isFinite = true → ∀ y : Float, y.isFinite = true →
    |q - magnitude x| ≤ |q - magnitude y|
  even : x.isFinite = true → ∀ y : Float, y.isFinite = true → magnitude y ≠ magnitude x →
    |q - magnitude x| = |q - magnitude y| → 2 ∣ significand x

theorem abs_sub_magnitude (num : Nat) {den : Nat} (h : 0 < den) (x : Float) :
    |(num : ℚ) / den - magnitude x| =
      |((num * unitsPerOne : Nat) : ℚ) - (units x * den : Nat)| / (den * unitsPerOne : Nat) := by
  have hd : (den : ℚ) ≠ 0 := by exact_mod_cast h.ne'
  have hu : (unitsPerOne : ℚ) ≠ 0 := by exact_mod_cast unitsPerOne_pos.ne'
  have hpos : (0 : ℚ) < (den * unitsPerOne : Nat) := by
    exact_mod_cast Nat.mul_pos h unitsPerOne_pos
  have hquotient : (num : ℚ) / den - magnitude x =
      (((num * unitsPerOne : Nat) : ℚ) - (units x * den : Nat)) / (den * unitsPerOne : Nat) := by
    rw [magnitude]
    generalize unitsPerOne = one at hu ⊢
    push_cast
    field_simp
  rw [hquotient, abs_div, abs_of_pos hpos]

theorem isNegative_ofMagnitude (negative : Bool) {m : Nat} (h : m ≤ infinityBits) :
    isNegative (ofMagnitude negative m) = negative := by
  rw [isNegative, bits_ofMagnitude negative h]
  rw [infinityBits] at h
  cases negative with
  | false =>
    simp
    omega
  | true => simp

theorem two_dvd_significand_iff (x : Float) : 2 ∣ significand x ↔ 2 ∣ bits x := by
  unfold significand fraction
  split <;> omega

theorem magnitude_lt {x y : Float} (h : bits x % 2 ^ 63 < bits y % 2 ^ 63) :
    magnitude x < magnitude y := by
  have hunits : (units x : ℚ) < units y := by
    rw [units_eq, units_eq]
    exact_mod_cast unitsOf_strictMono h
  exact div_lt_div_of_pos_right hunits (by exact_mod_cast unitsPerOne_pos)

theorem word_ofMagnitude (negative : Bool) {m : Nat} (h : m ≤ infinityBits) :
    bits (ofMagnitude negative m) % 2 ^ 63 = m := by
  rw [bits_ofMagnitude negative h]
  rw [infinityBits] at h
  cases negative with
  | false =>
    simp
    omega
  | true =>
    simp
    omega

namespace Rounds
variable {q : ℚ} {x y : Float}

theorem not_lt (hx : Rounds q x) (hy : Rounds q y) (hfinite : x.isFinite = true)
    (hfinite' : y.isFinite = true) : ¬ bits x % 2 ^ 63 < bits y % 2 ^ 63 := by
  intro hlt
  have hmagnitude := magnitude_lt hlt
  have htie : |q - magnitude x| = |q - magnitude y| :=
    le_antisymm (hx.nearest hfinite y hfinite') (hy.nearest hfinite' x hfinite)
  have hevenx := hx.even hfinite y hfinite' hmagnitude.ne' htie
  have heveny := hy.even hfinite' x hfinite hmagnitude.ne htie.symm
  rw [two_dvd_significand_iff] at hevenx heveny
  have htop := isFinite_iff_bits.mp hfinite'
  have hword : bits (ofMagnitude false (bits x % 2 ^ 63 + 1)) % 2 ^ 63 = bits x % 2 ^ 63 + 1 :=
    word_ofMagnitude false (by omega)
  have hbetween : (ofMagnitude false (bits x % 2 ^ 63 + 1)).isFinite = true := by
    rw [isFinite_iff_bits, hword]
    omega
  have hnear := hx.nearest hfinite _ hbetween
  have hlow : magnitude x < magnitude (ofMagnitude false (bits x % 2 ^ 63 + 1)) :=
    magnitude_lt (by omega)
  have hhigh : magnitude (ofMagnitude false (bits x % 2 ^ 63 + 1)) < magnitude y :=
    magnitude_lt (by omega)
  have hmiddle : 2 * q = magnitude x + magnitude y :=
    (eq_or_middle_of_abs_sub_eq htie).resolve_left hmagnitude.ne
  have hfar : |q - magnitude x| = q - magnitude x := abs_of_nonneg (by linarith)
  have hnearer : |q - magnitude (ofMagnitude false (bits x % 2 ^ 63 + 1))| < q - magnitude x :=
    abs_lt.mpr ⟨by linarith, by linarith⟩
  linarith

theorem unique (hx : Rounds q x) (hy : Rounds q y) : bits x % 2 ^ 63 = bits y % 2 ^ 63 := by
  by_cases hfinite : x.isFinite = true
  · have hfinite' : y.isFinite = true := hy.finite.mpr (hx.finite.mp hfinite)
    have hle := hx.not_lt hy hfinite hfinite'
    have hge := hy.not_lt hx hfinite' hfinite
    omega
  · have hinfinite : y.isFinite = false := by
      by_contra hcontra
      exact hfinite (hx.finite.mpr (hy.finite.mp (by simpa using hcontra)))
    rw [hx.infinite (by simpa using hfinite), hy.infinite hinfinite]

end Rounds

theorem rounds_ofMagnitude (negative : Bool) (num : Nat) {den : Nat} (h : 0 < den) :
    Rounds ((num : ℚ) / den) (ofMagnitude negative (nearestBits num den)) := by
  have hle := nearestBits_le num den
  have hword := word_ofMagnitude negative hle
  have hfinite := isFinite_ofMagnitude negative hle
  have hbetween := between_roundedWord (num * unitsPerOne) h
  generalize ofMagnitude negative (nearestBits num den) = x at hword hfinite ⊢
  have hround (hx : x.isFinite = true) : roundedWord (num * unitsPerOne) den = bits x % 2 ^ 63 := by
    have hlt := hfinite.mp hx
    rw [hword]
    rw [nearestBits_eq_min] at hlt ⊢
    omega
  have hpos : (0 : ℚ) < (den * unitsPerOne : Nat) := by
    exact_mod_cast Nat.mul_pos h unitsPerOne_pos
  refine ⟨?_, ?_, ?_, ?_⟩
  · rw [hfinite, nearestBits_lt_infinity_iff num h]
  · intro hx
    have hge : ¬ nearestBits num den < infinityBits := by simp [← hfinite, hx]
    omega
  · intro hx y _
    rw [abs_sub_magnitude num h, abs_sub_magnitude num h, units_eq, units_eq, ← hround hx]
    exact (div_le_div_iff_of_pos_right hpos).mpr (hbetween.abs_sub_le _)
  · intro hx y _ hne ht
    have hc : bits y % 2 ^ 63 ≠ roundedWord (num * unitsPerOne) den := by
      rw [hround hx]
      intro heq
      exact hne (by rw [magnitude, magnitude, units_eq, units_eq, heq])
    rw [abs_sub_magnitude num h, abs_sub_magnitude num h, units_eq, units_eq, ← hround hx,
      div_left_inj' hpos.ne'] at ht
    have heven := hbetween.even_of_tie h hc ht
    rw [hround hx] at heven
    rw [two_dvd_significand_iff]
    omega

end Double

def Decimal.value (d : Decimal) : ℚ := d.digits * 10 ^ d.exponent

namespace Decimal

theorem value_eq_div (d : Decimal) : d.value = d.num / d.den := by
  unfold value num den
  rcases le_total 0 d.exponent with hpos | hneg
  · obtain ⟨n, hn⟩ := Int.eq_ofNat_of_zero_le hpos
    rw [hn]
    simp
  · obtain ⟨n, hn⟩ := Int.eq_ofNat_of_zero_le (Int.neg_nonneg_of_nonpos hneg)
    have hexp : d.exponent = -(n : Int) := by omega
    rw [hexp]
    simp [div_eq_mul_inv]

theorem lt_pow_digitCount (n : Nat) : n < 10 ^ digitCount n :=
  (Nat.length_toDigits_le_iff (by decide) Nat.length_toDigits_pos).mp le_rfl

theorem pow_digitCount_le {n : Nat} (h : n ≠ 0) : 10 ^ (digitCount n - 1) ≤ n := by
  by_cases hone : digitCount n - 1 = 0
  · rw [hone]
    omega
  · by_contra hlt
    have hle := (Nat.length_toDigits_le_iff (by decide) (by omega)).mpr (Nat.lt_of_not_le hlt)
    unfold digitCount numeral at hone hle
    omega

theorem value_lt (d : Decimal) : d.value < 10 ^ ((digitCount d.digits : Int) + d.exponent) := by
  have hdigits : (d.digits : ℚ) < 10 ^ digitCount d.digits := by
    exact_mod_cast lt_pow_digitCount d.digits
  rw [value, zpow_add₀ (by norm_num), zpow_natCast]
  exact mul_lt_mul_of_pos_right hdigits (zpow_pos (by norm_num) _)

theorem le_value {d : Decimal} (h : d.digits ≠ 0) :
    (10 : ℚ) ^ ((digitCount d.digits : Int) - 1 + d.exponent) ≤ d.value := by
  have hdigits : (10 : ℚ) ^ (digitCount d.digits - 1) ≤ d.digits := by
    exact_mod_cast pow_digitCount_le h
  have hpos : 1 ≤ digitCount d.digits := Nat.length_toDigits_pos
  have hexp : ((digitCount d.digits : Int) - 1) = ((digitCount d.digits - 1 : Nat) : Int) := by
    omega
  rw [value, zpow_add₀ (by norm_num), hexp, zpow_natCast]
  exact mul_le_mul_of_nonneg_right hdigits (zpow_pos (by norm_num) _).le

end Decimal

namespace Double

theorem two_pow_le_ten_pow {n : Nat} (h : n ≤ 1200) : (2 : ℚ) ^ n ≤ 10 ^ 400 :=
  calc (2 : ℚ) ^ n ≤ 2 ^ (3 * 400) := pow_le_pow_right₀ (by norm_num) h
    _ = (2 ^ 3) ^ 400 := pow_mul 2 3 400
    _ ≤ 10 ^ 400 := pow_le_pow_left₀ (by norm_num) (by norm_num) 400

theorem nearestBits_of_large {d : Decimal} (hne : d.digits ≠ 0)
    (h : 400 < (Decimal.digitCount d.digits : Int) + d.exponent) :
    nearestBits d.num d.den = infinityBits := by
  have hvalue := Decimal.le_value hne
  have hpow : (10 : ℚ) ^ 400 ≤ 10 ^ ((Decimal.digitCount d.digits : Int) - 1 + d.exponent) := by
    rw [← zpow_natCast]
    exact zpow_le_zpow_right₀ (by norm_num) (by omega)
  have hbig : (2 : ℚ) ^ 1024 ≤ 10 ^ 400 := two_pow_le_ten_pow (by decide)
  have hhalf : (0 : ℚ) ≤ 2 ^ 970 := pow_nonneg (by norm_num) 970
  have hover : (2 : ℚ) ^ 1024 - 2 ^ 970 ≤ d.value :=
    calc (2 : ℚ) ^ 1024 - 2 ^ 970 ≤ 2 ^ 1024 := sub_le_self _ hhalf
      _ ≤ d.value := hbig.trans (hpow.trans hvalue)
  have hnot : ¬ nearestBits d.num d.den < infinityBits := by
    rw [nearestBits_lt_infinity_iff d.num d.den_pos, ← Decimal.value_eq_div]
    exact not_lt.mpr hover
  have hle := nearestBits_le d.num d.den
  omega

theorem nearestBits_of_small {d : Decimal}
    (h : (Decimal.digitCount d.digits : Int) + d.exponent < -400) :
    nearestBits d.num d.den = 0 := by
  have hden : (0 : ℚ) < d.den := by exact_mod_cast d.den_pos
  have hunits : (0 : ℚ) < 2 * unitsPerOne := by
    exact_mod_cast Nat.mul_pos (by decide) unitsPerOne_pos
  have hpow : (10 : ℚ) ^ ((Decimal.digitCount d.digits : Int) + d.exponent) ≤ (10 ^ 400)⁻¹ := by
    rw [← zpow_natCast, ← zpow_neg]
    exact zpow_le_zpow_right₀ (by norm_num) (by omega)
  have hsmall : (d.num : ℚ) < (10 ^ 400)⁻¹ * d.den := by
    rw [← div_lt_iff₀ hden, ← Decimal.value_eq_div]
    exact d.value_lt.trans_le hpow
  have hbig : 2 * (unitsPerOne : ℚ) ≤ 10 ^ 400 := by
    rw [unitsPerOne, Nat.cast_pow, Nat.cast_ofNat, ← pow_succ']
    exact two_pow_le_ten_pow (by decide)
  have hone : 2 * (unitsPerOne : ℚ) * (10 ^ 400)⁻¹ ≤ 1 :=
    mul_inv_le_one_of_le₀ hbig (pow_nonneg (by norm_num) 400)
  have hscaled : 2 * (unitsPerOne : ℚ) * d.num < d.den :=
    calc 2 * (unitsPerOne : ℚ) * d.num
        < 2 * unitsPerOne * ((10 ^ 400)⁻¹ * d.den) := mul_lt_mul_of_pos_left hsmall hunits
      _ = 2 * unitsPerOne * (10 ^ 400)⁻¹ * d.den := (mul_assoc _ _ _).symm
      _ ≤ 1 * d.den := mul_le_mul_of_nonneg_right hone hden.le
      _ = d.den := one_mul _
  have hcast : 2 * unitsPerOne * d.num < d.den := by exact_mod_cast hscaled
  refine nearestBits_eq_zero d.den_pos ?_
  generalize unitsPerOne = one at hcast ⊢
  have hcomm : 2 * (d.num * one) = 2 * one * d.num := by ring
  omega

/-- The cuts at `10 ^ 400` and `10 ^ (-400)` change nothing. -/
theorem ofDecimal_eq (negative : Bool) (d : Decimal) :
    ofDecimal negative d = ofMagnitude negative (nearestBits d.num d.den) := by
  unfold ofDecimal
  dsimp only
  refine congrArg (ofMagnitude negative) ?_
  split
  · next hzero => rw [Decimal.num, hzero, Nat.zero_mul, nearestBits_zero d.den_pos]
  · next hne =>
    split
    · next htop => exact (nearestBits_of_large hne htop).symm
    · split
      · next htop => exact (nearestBits_of_small htop).symm
      · rfl

theorem rounds_ofDecimal (negative : Bool) (d : Decimal) :
    Rounds d.value (ofDecimal negative d) := by
  rw [ofDecimal_eq, Decimal.value_eq_div]
  exact rounds_ofMagnitude negative d.num d.den_pos

theorem isNegative_ofDecimal (negative : Bool) (d : Decimal) :
    isNegative (ofDecimal negative d) = negative := by
  rw [ofDecimal_eq]
  exact isNegative_ofMagnitude negative (nearestBits_le d.num d.den)

end Double
end FormulaTable
