import FormulaTable.Proofs.Double.Fewest

/-!
# The choice among decimals

Of the decimals with the fewest digits that read back as a double the search chooses the nearest
one, and of two that are as near the even one. This determines the number that is chosen.
-/

namespace FormulaTable

namespace Rounding
variable {den : Nat}

theorem toEven_nearest (num : Nat) (h : 0 < den) (n : Nat) :
    |(num : ℚ) / den - toEven num den| ≤ |(num : ℚ) / den - n| ∧
      (|(num : ℚ) / den - toEven num den| = |(num : ℚ) / den - n| → n ≠ toEven num den →
        2 ∣ toEven num den) := by
  have hd : (0 : ℚ) < den := by exact_mod_cast h
  obtain ⟨hdown, hup⟩ := abs_le.mp (abs_sub_toEven_le num h)
  have hcancel : (num : ℚ) / den * den = num := div_mul_cancel₀ _ hd.ne'
  have heven := @even_of_tie_above num _ h
  have heven' := @even_of_tie_below num _ h
  generalize toEven num den = even at hup hdown heven heven' ⊢
  rcases Nat.lt_trichotomy n even with hlt | rfl | hlt
  · have hn : (n : ℚ) + 1 ≤ even := by exact_mod_cast hlt
    refine ⟨Double.abs_sub_le_of_middle_le (by linarith) (by linarith), fun htie hne => heven' ?_⟩
    have hmiddle := (Double.eq_or_middle_of_abs_sub_eq htie).resolve_left (by linarith)
    have hscaled : (2 * even * den : ℚ) = 2 * num + den :=
      calc (2 * even * den : ℚ) = (2 * ((num : ℚ) / den) + 1) * den := by
            congr 1
            linarith
        _ = 2 * num + den := by rw [add_mul, mul_assoc, hcancel, one_mul]
    exact_mod_cast hscaled
  · exact ⟨le_rfl, fun _ hne => absurd rfl hne⟩
  · have hn : (even : ℚ) + 1 ≤ n := by exact_mod_cast hlt
    refine ⟨Double.abs_sub_le_of_le_middle (by linarith) (by linarith), fun htie hne => heven ?_⟩
    have hmiddle := (Double.eq_or_middle_of_abs_sub_eq htie).resolve_left (by linarith)
    have hscaled : (2 * num : ℚ) = (2 * even + 1) * den :=
      calc (2 * num : ℚ) = 2 * ((num : ℚ) / den) * den := by rw [mul_assoc, hcancel]
        _ = (2 * even + 1) * den := by
          congr 1
          linarith
    exact_mod_cast hscaled

end Rounding

namespace Double
open Decimal (value_le_value digits_eq_of_value_eq digits_eq_mul_pow exponent_le_of_value_eq
  step_le_abs_sub value_zero value_power exists_on_grid exists_trimmed lt_pow_width)
variable {x : Float} {p : Int} {d : Decimal}

theorem abs_value_sub (x : Float) (d : Decimal) :
    |d.value - magnitude x| =
      |((units x * 10 ^ (-d.exponent).toNat : Nat) : ℚ) /
        (unitsPerOne * 10 ^ d.exponent.toNat : Nat) - d.digits| * 10 ^ d.exponent := by
  have hstep : (0 : ℚ) < 10 ^ d.exponent := zpow_pos (by norm_num) _
  rw [Decimal.value, magnitude_eq_scaled x d.exponent, ← sub_mul, abs_mul, abs_of_pos hstep,
    abs_sub_comm]

theorem abs_sub_le_of_between {q a c : ℚ} (h : c ≤ a ∧ a ≤ q ∨ q ≤ a ∧ a ≤ c) :
    |a - q| ≤ |c - q| ∧ (|a - q| = |c - q| → c = a) := by
  rcases h with ⟨hca, haq⟩ | ⟨hqa, hac⟩
  · rw [abs_of_nonpos (by linarith), abs_of_nonpos (by linarith)]
    exact ⟨by linarith, fun _ => by linarith⟩
  · rw [abs_of_nonneg (by linarith), abs_of_nonneg (by linarith)]
    exact ⟨by linarith, fun _ => by linarith⟩

/-- `s` is at least as near to `x` as `d` is, and even where another `d` is as near. -/
structure Preferred (x : Float) (s d : Decimal) : Prop where
  near : |s.value - magnitude x| ≤ |d.value - magnitude x|
  even : |s.value - magnitude x| = |d.value - magnitude x| → d.digits ≠ s.digits → 2 ∣ s.digits

theorem preferred_of_between {s : Decimal} (hp : d.exponent = s.exponent)
    (h : d.value ≤ s.value ∧ s.value ≤ magnitude x ∨ magnitude x ≤ s.value ∧ s.value ≤ d.value) :
    Preferred x s d := by
  obtain ⟨hnear, htie⟩ := abs_sub_le_of_between h
  exact ⟨hnear, fun heq hne => absurd (digits_eq_of_value_eq hp (htie heq)) hne⟩

theorem hit?_preferred (hx : x.isFinite = true) {s : Decimal} (hs : hit? x p = some s)
    (h : ReadsBack x d) (hp : d.exponent = p) : Preferred x s d := by
  obtain ⟨hexponent, hdigits⟩ := hit?_cases hs
  subst hp
  have hstep : (0 : ℚ) < 10 ^ d.exponent := zpow_pos (by norm_num) _
  have hden : 0 < unitsPerOne * 10 ^ d.exponent.toNat :=
    Nat.mul_pos unitsPerOne_pos (Nat.pow_pos (by decide))
  obtain ⟨hlow, hhigh⟩ := floorOn_spec x d.exponent
  have hexact := readsBack_exact hx
  have hvalue := value_exact x
  rcases hdigits with heven | ⟨hfloor, hnot⟩ | ⟨hfloor, hnot⟩
  · obtain ⟨hnear, htie⟩ := Rounding.toEven_nearest (units x * 10 ^ (-d.exponent).toNat)
      hden d.digits
    constructor
    · rw [abs_value_sub, abs_value_sub, hexponent, heven]
      exact mul_le_mul_of_nonneg_right hnear hstep.le
    · rw [abs_value_sub, abs_value_sub, hexponent, heven]
      exact fun h => htie (mul_right_cancel₀ hstep.ne' h)
  -- Only decimals on one side read back, and the hit is next to the double on that side.
  · have hle : d.digits ≤ s.digits := by
      by_contra hlt
      refine hnot (hexact.of_between h ?_ (value_le_value rfl (by dsimp only; omega)))
      rw [hvalue]
      exact hhigh.le
    have hbelow : s.value ≤ magnitude x := by rwa [Decimal.value, hexponent, hfloor]
    exact preferred_of_between hexponent.symm
      (.inl ⟨value_le_value hexponent.symm hle, hbelow⟩)
  · have hle : s.digits ≤ d.digits := by
      by_contra hlt
      refine hnot (h.of_between hexact (value_le_value rfl (by dsimp only; omega)) ?_)
      rw [hvalue]
      exact hlow
    have habove : magnitude x ≤ s.value := by
      rw [Decimal.value, hexponent, hfloor]
      exact hhigh.le
    exact preferred_of_between hexponent.symm (.inr ⟨habove, value_le_value hexponent hle⟩)

theorem preferred_of_value_eq {s : Decimal} (hp : d.exponent = s.exponent)
    (h : s.value = magnitude x) : Preferred x s d := by
  rcases le_total d.value (magnitude x) with hle | hle
  · exact preferred_of_between hp (.inl ⟨hle.trans h.ge, h.le⟩)
  · exact preferred_of_between hp (.inr ⟨h.ge, h.le.trans hle⟩)

theorem shortest_preferred (hx : x.isFinite = true) (h : ReadsBack x d)
    (hp : d.exponent = (shortest x).exponent) : Preferred x (shortest x) d := by
  by_cases hzero : units x = 0
  · refine preferred_of_value_eq hp ?_
    rw [shortest_of_zero hzero, magnitude_of_units hzero, value_zero]
  · obtain ⟨-, -, hhit | hvalue⟩ := shortest_spec hzero
    · exact hit?_preferred hx hhit h hp
    · exact preferred_of_value_eq hp hvalue

theorem ReadsBack.shortest_nearest (hx : x.isFinite = true) (h : ReadsBack x d)
    (hw : d.width ≤ (shortest x).width) :
    |(shortest x).value - magnitude x| ≤ |d.value - magnitude x| := by
  by_cases hne : units x = 0
  · rw [shortest_of_zero hne, magnitude_of_units hne, value_zero, sub_self, abs_zero]
    exact abs_nonneg _
  · obtain ⟨core, zeros, hd⟩ := Decimal.Significant.exists_of_ne_zero (h.digits_ne_zero hne)
    have hvalue := Decimal.value_eq_core hd
    rcases le_or_gt (shortest x).exponent (d.exponent + zeros) with hle | hgt
    · obtain ⟨d', hgrid, hsame⟩ := exists_on_grid (d := ⟨core, d.exponent + zeros⟩) hle
      have hsame : d'.value = d.value := hsame.trans hvalue.symm
      rw [← hsame]
      exact (shortest_preferred hx (h.of_value_eq hsame) hgrid).near
    · -- A decimal of no more digits on a finer grid is below the power of ten under the double.
      obtain ⟨hplace, -, -⟩ := shortest_spec hne
      obtain ⟨hlow, -⟩ := firstPlace_spec hne
      have hwidth := width_shortest_le_place hx hne
      rw [Decimal.width_eq hd] at hw
      have hpower : d.value ≤ Decimal.value ⟨1, firstPlace x⟩ := by
        rw [value_power]
        exact hd.value_lt.le.trans (zpow_le_zpow_right₀ (by norm_num) (by omega))
      have hpower' : Decimal.value ⟨1, firstPlace x⟩ ≤ magnitude x := by rwa [value_power]
      obtain ⟨d', hgrid, hsame⟩ := exists_on_grid (d := ⟨1, firstPlace x⟩) hplace
      have hread : ReadsBack x d' := by
        refine h.of_between (readsBack_exact hx) ?_ ?_
        · rwa [hsame]
        · rwa [hsame, value_exact]
      have hnear := (shortest_preferred hx hread hgrid).near
      rw [hsame] at hnear
      exact hnear.trans (abs_sub_le_of_between (.inl ⟨hpower, hpower'⟩)).1

/-- The decimal reads back as `x`, with the fewest digits, and is the nearest with so many. Where
another one with as many places, zeros at the end left out, is as near, its last digit is even. -/
structure IsShortest (x : Float) (d : Decimal) : Prop where
  readsBack : ReadsBack x d
  fewest : ∀ d', ReadsBack x d' → d.width ≤ d'.width
  nearest : ∀ d', ReadsBack x d' → d'.width = d.width →
    |d.value - magnitude x| ≤ |d'.value - magnitude x|
  even : ∀ n d' : Decimal, n.value = d.value → n.digits % 10 ≠ 0 → ReadsBack x d' →
    d'.exponent = n.exponent → d'.digits ≠ n.digits →
    |d.value - magnitude x| = |d'.value - magnitude x| → 2 ∣ n.digits

theorem middle_of_tie {s d : Decimal} (h : |s.value - magnitude x| = |d.value - magnitude x|)
    (hne : s.value ≠ d.value) : 2 * magnitude x = s.value + d.value := by
  rw [abs_sub_comm, abs_sub_comm d.value] at h
  exact (eq_or_middle_of_abs_sub_eq h).resolve_left hne

theorem shortest_even (hx : x.isFinite = true) {n : Decimal} (hn : n.value = (shortest x).value)
    (hlast : n.digits % 10 ≠ 0) (h : ReadsBack x d) (hp : d.exponent = n.exponent)
    (hne : d.digits ≠ n.digits)
    (htie : |(shortest x).value - magnitude x| = |d.value - magnitude x|) : 2 ∣ n.digits := by
  obtain ⟨hread, hneighbours⟩ := shortest_readsBack hx
  have hnear := hneighbours.abs_sub_le
  have hcoarser := exponent_le_of_value_eq hn hlast
  obtain ⟨k, hk⟩ : ∃ k : Nat, n.exponent = k + (shortest x).exponent :=
    ⟨(n.exponent - (shortest x).exponent).toNat, by omega⟩
  rcases Nat.eq_zero_or_pos k with rfl | hpos
  · have hgrid : n.exponent = (shortest x).exponent := by simpa using hk
    have hdigits := digits_eq_of_value_eq hgrid hn
    rw [hdigits] at hne ⊢
    exact (shortest_preferred hx h (hp.trans hgrid)).even htie hne
  · -- The search would have stopped on the coarser grid, where the two are a step apart.
    have hvalue : (shortest x).value ≠ d.value :=
      fun heq => hne (digits_eq_of_value_eq hp (heq.symm.trans hn.symm))
    have hmiddle := middle_of_tie htie hvalue
    have happart := step_le_abs_sub hp.symm hne.symm
    have htwice : n.value - d.value = 2 * ((shortest x).value - magnitude x) := by
      rw [hn]
      linarith
    have hstep : (0 : ℚ) < 10 ^ (shortest x).exponent := zpow_pos (by norm_num) _
    have hten : (10 : ℚ) ≤ 10 ^ k := le_self_pow₀ (by norm_num) hpos.ne'
    rw [htwice, abs_mul, abs_of_pos (by norm_num), hk, zpow_add₀ (by norm_num), zpow_natCast]
      at happart
    have hscaled := mul_le_mul_of_nonneg_right hten hstep.le
    linarith

theorem isShortest_shortest (hx : x.isFinite = true) : IsShortest x (shortest x) where
  readsBack := (shortest_readsBack hx).1
  fewest _ h := h.shortest_fewest hx
  nearest _ h hw := h.shortest_nearest hx hw.le
  even _ _ hn hlast h hp hne htie := shortest_even hx hn hlast h hp hne htie

namespace IsShortest

theorem value_eq_of_between (hx : x.isFinite = true) (h : IsShortest x d) {c : Decimal}
    (hc : d.value ≤ c.value ∧ c.value ≤ magnitude x ∨ magnitude x ≤ c.value ∧ c.value ≤ d.value)
    (hw : c.width ≤ d.width) : d.value = c.value := by
  have hread : ReadsBack x c := by
    have hexact := readsBack_exact hx
    rw [← value_exact] at hc
    rcases hc with ⟨hlow, hhigh⟩ | ⟨hlow, hhigh⟩
    · exact h.readsBack.of_between hexact hlow hhigh
    · exact hexact.of_between h.readsBack hlow hhigh
  obtain ⟨hnear, heq⟩ := abs_sub_le_of_between hc
  exact heq (le_antisymm hnear (h.nearest c hread (le_antisymm hw (h.fewest c hread))))

/-- A double in the middle of two even numbers of steps is on the grid itself. A shortest decimal of
that grid is then its value, for else one with no more digits would be between the two. -/
theorem digits_eq_of_even (hx : x.isFinite = true) {n : Decimal} (h : IsShortest x n)
    (hlast : n.digits % 10 ≠ 0) (hp : d.exponent = n.exponent)
    (hmiddle : 2 * magnitude x = n.value + d.value) (hn : 2 ∣ n.digits) (hd : 2 ∣ d.digits) :
    n.digits = d.digits := by
  obtain ⟨a, ha⟩ := hn
  obtain ⟨b, hb⟩ := hd
  have hexact : Decimal.value ⟨a + b, n.exponent⟩ = magnitude x := by
    rw [Decimal.value, Decimal.value, hp, ha, hb] at hmiddle
    rw [Decimal.value]
    push_cast at hmiddle ⊢
    linarith
  have htop : n.digits < 10 ^ n.width := lt_pow_width hlast
  have hnonzero : n.digits ≠ 0 := by omega
  have hwidth : n.width ≠ 0 := Nat.one_le_iff_ne_zero.mp (Decimal.one_le_width hnonzero)
  have hbetween (c : Nat) (hcap : c ≤ 10 ^ n.width)
      (hc : n.digits ≤ c ∧ c ≤ a + b ∨ a + b ≤ c ∧ c ≤ n.digits) : n.digits = c := by
    have hvalue := hc.imp
      (And.imp (@value_le_value n ⟨c, n.exponent⟩ rfl)
        (@value_le_value ⟨c, n.exponent⟩ ⟨a + b, n.exponent⟩ rfl))
      (And.imp (@value_le_value ⟨a + b, n.exponent⟩ ⟨c, n.exponent⟩ rfl)
        (@value_le_value ⟨c, n.exponent⟩ n rfl))
    rw [hexact] at hvalue
    have heq := h.value_eq_of_between hx hvalue (Decimal.width_le hwidth hcap)
    exact @digits_eq_of_value_eq n ⟨c, n.exponent⟩ rfl heq
  -- The double itself may have more digits, but then the next power of ten has not.
  have hcapped := hbetween (min (a + b) (10 ^ n.width)) (by omega) (by omega)
  omega

theorem value_eq_of_exponent_le (hx : x.isFinite = true) {n n' : Decimal} (h : IsShortest x n)
    (h' : IsShortest x n') (hn : n.digits % 10 ≠ 0) (hn' : n'.digits % 10 ≠ 0)
    (hp : n.exponent ≤ n'.exponent) : n.value = n'.value := by
  have hwidth : n.width = n'.width :=
    le_antisymm (h.fewest n' h'.readsBack) (h'.fewest n h.readsBack)
  have htie : |n.value - magnitude x| = |n'.value - magnitude x| :=
    le_antisymm (h.nearest n' h'.readsBack hwidth.symm) (h'.nearest n h.readsBack hwidth)
  obtain ⟨d, hgrid, hd⟩ := exists_on_grid hp
  by_contra hne
  have hmiddle := middle_of_tie htie hne
  have hapart : d.digits ≠ n.digits := by
    intro heq
    rw [← hd] at hne
    exact hne (le_antisymm (value_le_value hgrid.symm heq.ge) (value_le_value hgrid heq.le))
  have heven : 2 ∣ n.digits :=
    h.even n d rfl hn (h'.readsBack.of_value_eq hd) hgrid hapart (by rwa [hd])
  have heven' : 2 ∣ d.digits := by
    obtain ⟨k, hk⟩ : ∃ k : Nat, n'.exponent = k + d.exponent :=
      ⟨(n'.exponent - n.exponent).toNat, by omega⟩
    have hdigits := digits_eq_mul_pow hk hd.symm
    cases k with
    | zero =>
      rw [Nat.pow_zero, Nat.mul_one] at hdigits
      rw [hdigits] at hapart ⊢
      exact h'.even n' n rfl hn' h.readsBack (by omega) hapart.symm htie.symm
    | succ k =>
      have htwo : 2 ∣ 10 := by decide
      rw [hdigits, Nat.pow_succ]
      exact (htwo.mul_left _).mul_left _
  rw [← hd] at hmiddle
  exact hapart (h.digits_eq_of_even hx hn hgrid hmiddle heven heven').symm

theorem congr (h : IsShortest x d) {d' : Decimal} (hv : d'.value = d.value)
    (hw : d'.width = d.width) : IsShortest x d' where
  readsBack := h.readsBack.of_value_eq hv
  fewest := by
    rw [hw]
    exact h.fewest
  nearest := by
    rw [hv, hw]
    exact h.nearest
  even := by
    rw [hv]
    exact h.even

theorem unique (hx : x.isFinite = true) (h : IsShortest x d) {d' : Decimal}
    (h' : IsShortest x d') : d.value = d'.value := by
  by_cases hne : units x = 0
  · have hzero {d : Decimal} (h : IsShortest x d) : d.value = 0 := by
      have hbetween : magnitude x ≤ Decimal.value ⟨0, d.exponent⟩ ∧
          Decimal.value ⟨0, d.exponent⟩ ≤ d.value :=
        ⟨by rw [value_zero, magnitude_of_units hne], value_le_value rfl (Nat.zero_le _)⟩
      have hwidth : Decimal.width ⟨0, d.exponent⟩ ≤ d.width := by
        rw [Decimal.width_zero]
        exact Nat.zero_le _
      rw [h.value_eq_of_between hx (.inr hbetween) hwidth, value_zero]
    rw [hzero h, hzero h']
  · obtain ⟨n, hvalue, hwidth, hn⟩ := exists_trimmed (h.readsBack.digits_ne_zero hne)
    obtain ⟨n', hvalue', hwidth', hn'⟩ := exists_trimmed (h'.readsBack.digits_ne_zero hne)
    have hs := h.congr hvalue hwidth
    have hs' := h'.congr hvalue' hwidth'
    rw [← hvalue, ← hvalue']
    rcases le_total n.exponent n'.exponent with hle | hle
    · exact hs.value_eq_of_exponent_le hx hs' hn hn' hle
    · exact (hs'.value_eq_of_exponent_le hx hs hn' hn hle).symm

end IsShortest

end Double
end FormulaTable
