import FormulaTable.Proofs.Decimal.Numeral
import FormulaTable.Proofs.Decimal.Significant
import FormulaTable.Proofs.Double.Order

/-!
# The number that a text denotes

Wherever a layout puts the point, and with or without a power of ten, the text of a decimal is read
as a decimal of the same value.
-/

namespace FormulaTable.Decimal
open Formula (Literal EndsDigits)

/-- The number that a text denotes, where it is that of a decimal. -/
def denoted? (cs : List Char) : Option ℚ := (read? cs).map fun r => signedBy r.1 r.2.value

variable {cs : List Char} {d : Decimal}

theorem sign_of_readUnsigned? (h : readUnsigned? cs = some d) : sign cs = (false, cs) := by
  fun_cases sign cs with
  | case1 rest =>
    have hminus : Text.digitValue? '-' = none := by decide
    simp [readUnsigned?, digitRun, fractionRun, hminus] at h
  | case2 rest =>
    have hplus : Text.digitValue? '+' = none := by decide
    simp [readUnsigned?, digitRun, fractionRun, hplus] at h
  | case3 => rfl

theorem read?_signed (negative : Bool) (h : readUnsigned? cs = some d) :
    read? (if negative then '-' :: cs else cs) = some (negative, d) := by
  cases negative with
  | false => simp [read?, sign_of_readUnsigned? h, h]
  | true => simp [read?, sign, h]

theorem denoted?_signed (negative : Bool) (h : readUnsigned? cs = some d) :
    denoted? (if negative then '-' :: cs else cs) = some (signedBy negative d.value) := by
  rw [denoted?, read?_signed negative h, Option.map_some]

theorem value_literal (l : Literal) :
    l.decimal.value =
      Nat.ofDigitChars 10 l.digits 0 * 10 ^ (-((l.fraction?.getD []).length : Int)) := by
  rw [Literal.decimal, ofDigits_map, value]

structure IsPlaced (places : Nat) (l : Literal) : Prop where
  whole : l.whole ≠ []
  front : l.whole.head? = some '0' → l.whole = ['0']
  length : (l.fraction?.getD []).length = places
  point : l.fraction? = none ↔ places = 0

theorem exists_literal (whole places : List Char) (hw : ∀ c ∈ whole, c.isDigit = true)
    (hp : ∀ c ∈ places, c.isDigit = true) (hne : whole ≠ []) (hplaces : places ≠ [])
    (hfront : whole.head? = some '0' → whole = ['0']) :
    ∃ l : Literal, l.text = whole ++ '.' :: places ∧ IsPlaced places.length l ∧
      l.decimal.value =
        Nat.ofDigitChars 10 (whole ++ places) 0 * 10 ^ (-(places.length : Int)) := by
  have hdigits : ∀ c ∈ whole ++ places, c.isDigit = true :=
    fun c hc => (List.mem_append.mp hc).elim (hw c) (hp c)
  exact ⟨⟨whole, some places, hdigits, List.append_ne_nil_of_left_ne_nil hne _⟩, rfl,
    ⟨hne, hfront, rfl, by simpa using hplaces⟩, value_literal _⟩

theorem isDigit_of_mem_zeros (n : Nat) : ∀ c ∈ List.replicate n '0', c.isDigit = true := by
  intro c hc
  rw [List.eq_of_mem_replicate hc]
  decide

section Places
variable {ds : List Char} (hds : ∀ c ∈ ds, c.isDigit = true) (hne : ds ≠ [])
variable (hfront : ds.head? ≠ some '0')
include hds hne hfront

theorem exists_literal_pointed :
    ∃ l : Literal, l.text = pointed ds ∧ IsPlaced (ds.length - 1) l ∧
      l.decimal.value = Nat.ofDigitChars 10 ds 0 * 10 ^ (1 - (ds.length : Int)) := by
  rcases ds with _ | ⟨c, _ | ⟨b, rest⟩⟩
  · exact absurd rfl hne
  · refine ⟨⟨[c], none, by simpa using hds, by simp⟩, rfl, ⟨hne, ?_, rfl, by simp⟩, ?_⟩
    · exact fun hzero => absurd hzero hfront
    · rw [value_literal]
      rfl
  · obtain ⟨hc, hrest⟩ := List.forall_mem_cons.mp hds
    obtain ⟨l, htext, hplaced, hvalue⟩ :=
      exists_literal [c] (b :: rest) (by simpa using hc) hrest (List.cons_ne_nil _ _)
        (List.cons_ne_nil _ _) (fun hzero => absurd hzero hfront)
    refine ⟨l, htext, hplaced, ?_⟩
    rw [hvalue, List.length_cons (a := c), Nat.cast_succ, sub_add_cancel_right]
    rfl

theorem exists_literal_positional (point : Int) :
    ∃ l places, l.text = positional ds point ∧ IsPlaced places l ∧ places ≠ 0 ∧
      l.decimal.value = Nat.ofDigitChars 10 ds 0 * 10 ^ (point - ds.length) := by
  unfold positional
  split
  · -- All digits stand behind the point.
    have hplaces : ∀ c ∈ List.replicate (-point).toNat '0' ++ ds, c.isDigit = true :=
      fun c hc => (List.mem_append.mp hc).elim (isDigit_of_mem_zeros _ c) (hds c)
    have hnil : List.replicate (-point).toNat '0' ++ ds ≠ [] :=
      List.append_ne_nil_of_right_ne_nil _ hne
    obtain ⟨l, htext, hplaced, hvalue⟩ := exists_literal ['0'] _ (isDigit_of_mem_zeros 1) hplaces
      (List.cons_ne_nil _ _) hnil (fun _ => rfl)
    refine ⟨l, _, by rw [htext]; simp, hplaced, List.length_eq_zero_iff.not.mpr hnil, ?_⟩
    have hlength : -((List.replicate (-point).toNat '0' ++ ds).length : Int) =
        point - ds.length := by
      rw [List.length_append, List.length_replicate]
      omega
    have hzero : Nat.ofDigitChars 10 ['0'] 0 = 0 := by decide
    rw [hvalue, hlength, Nat.ofDigitChars_append, hzero, Nat.ofDigitChars_append,
      Nat.ofDigitChars_replicate_zero, Nat.mul_zero]
  · next hpoint =>
    extract_lets n
    have hn : (n : Int) = point := Int.toNat_of_nonneg (by omega)
    split
    · -- The digits end before the point.
      next hfill =>
      have hwhole : ∀ c ∈ ds ++ List.replicate (n - ds.length) '0', c.isDigit = true :=
        fun c hc => (List.mem_append.mp hc).elim (hds c) (isDigit_of_mem_zeros _ c)
      have hhead : (ds ++ List.replicate (n - ds.length) '0').head? ≠ some '0' := by
        rwa [List.head?_append_of_ne_nil _ hne]
      obtain ⟨l, htext, hplaced, hvalue⟩ := exists_literal _ ['0'] hwhole
        (isDigit_of_mem_zeros 1) (List.append_ne_nil_of_left_ne_nil hne _)
        (List.cons_ne_nil _ _) (fun hzero => absurd hzero hhead)
      refine ⟨l, _, by rw [htext], hplaced, Nat.one_ne_zero, ?_⟩
      have hfilled : point - ds.length = ((n - ds.length : Nat) : Int) := by omega
      have hlast (m : Nat) : Nat.ofDigitChars 10 ['0'] m = 10 * m := rfl
      rw [hvalue, Nat.ofDigitChars_append, Nat.ofDigitChars_append,
        Nat.ofDigitChars_replicate_zero, hlast, hfilled, zpow_natCast]
      push_cast
      norm_num
      ring
    · next hcut =>
      have htake : ds.take n ≠ [] := by
        rw [Ne, List.take_eq_nil_iff]
        exact not_or.mpr ⟨by omega, hne⟩
      have hdrop : ds.drop n ≠ [] := by
        rw [Ne, List.drop_eq_nil_iff]
        omega
      have hhead : (ds.take n).head? ≠ some '0' := by
        rwa [List.head?_take, if_neg (by omega)]
      obtain ⟨l, htext, hplaced, hvalue⟩ := exists_literal (ds.take n) (ds.drop n)
        (fun c hc => hds c (List.mem_of_mem_take hc)) (fun c hc => hds c (List.mem_of_mem_drop hc))
        htake hdrop (fun hzero => absurd hzero hhead)
      refine ⟨l, _, htext, hplaced, List.length_eq_zero_iff.not.mpr hdrop, ?_⟩
      have hlength : -((ds.drop n).length : Int) = point - ds.length := by
        rw [List.length_drop]
        omega
      rw [hvalue, hlength, List.take_append_drop]

end Places

theorem numeral_ne_nil (n : Nat) : numeral n ≠ [] := Nat.toDigits_ne_nil

theorem head?_numeral {n : Nat} (h : n ≠ 0) : (numeral n).head? ≠ some '0' := by
  induction n using Nat.strongRecOn with
  | ind n ih =>
    by_cases hlt : n < 10
    · rw [numeral_of_lt hlt, List.head?_cons, Ne, Option.some.injEq]
      exact digitChar_ne_zero hlt h
    · rw [numeral_of_le (by omega), List.head?_append_of_ne_nil _ (numeral_ne_nil _)]
      exact ih (n / 10) (by omega) (by omega)

theorem isPlaced_placedLiteral (places count : Nat) :
    IsPlaced places (placedLiteral places count) := by
  have hlength : places ≠ 0 → (numeral (count % 10 ^ places)).length ≤ places := fun h =>
    (Nat.length_toDigits_le_iff (by decide) (by omega)).mpr
      (Nat.mod_lt _ (Nat.pow_pos (by decide)))
  refine ⟨numeral_ne_nil _, fun hzero => ?_, ?_, ?_⟩
  · change (numeral (count / 10 ^ places)).head? = some '0' at hzero
    change numeral (count / 10 ^ places) = ['0']
    by_cases h : count / 10 ^ places = 0
    · rw [h]
      rfl
    · exact absurd hzero (head?_numeral h)
  · unfold placedLiteral
    by_cases h : places = 0
    · simp [h]
    · simpa [h] using length_padLeft (hlength h)
  · unfold placedLiteral
    by_cases h : places = 0 <;> simp [h]

theorem value_placedLiteral (places count : Nat) :
    (placedLiteral places count).decimal.value = count / 10 ^ places := by
  rw [decimal_placedLiteral, value, zpow_neg, zpow_natCast, div_eq_mul_inv]

theorem digitRun_digits {ds : List Char} (hds : ∀ c ∈ ds, c.isDigit = true) :
    digitRun ds = (ds.map (·.toNat - 48), []) := by
  have hends : EndsDigits [] := by simp [EndsDigits]
  have h := Formula.digitRun_append hds hends
  rwa [List.append_nil] at h

theorem power?_exponentText (width : Nat) (e : Int) :
    power? ('e' :: exponentText width e) = some e := by
  have hnumeral : ∀ c ∈ padLeft width '0' (numeral e.natAbs), c.isDigit = true :=
    isDigit_of_mem_padLeft isDigit_of_mem_numeral
  have hdigits := digitRun_digits hnumeral
  have hvalue : ofDigits ((padLeft width '0' (numeral e.natAbs)).map (·.toNat - 48)) =
      e.natAbs := by rw [ofDigits_map, ofDigitChars_padLeft, ofDigitChars_numeral]
  have hne : (padLeft width '0' (numeral e.natAbs)).map (·.toNat - 48) ≠ [] := by
    rw [Ne, List.map_eq_nil_iff]
    exact List.append_ne_nil_of_right_ne_nil _ (numeral_ne_nil _)
  have hsign : sign (exponentText width e) =
      (decide (e < 0), padLeft width '0' (numeral e.natAbs)) := by
    unfold exponentText
    by_cases hneg : e < 0 <;> simp [hneg, sign]
  obtain ⟨v, vs, hcons⟩ := List.exists_cons_of_ne_nil hne
  rw [hcons] at hdigits hvalue
  simp only [power?, true_or, if_true, hsign, hdigits, hvalue, Option.some.injEq]
  by_cases hneg : e < 0
  · rw [if_pos (decide_eq_true hneg)]
    omega
  · rw [if_neg (by simpa using hneg)]
    omega

theorem exists_literal_layout (l : Layout) (d : Decimal) :
    ∃ n places, IsPlaced places n ∧
      (l.text d = n.text ∧ places ≠ 0 ∧ n.decimal.value = d.value ∨
        ∃ width e, l.text d = n.text ++ 'e' :: exponentText width e ∧
          n.decimal.value * 10 ^ e = d.value) := by
  unfold Layout.text
  split
  · next hzero =>
    have hvalue : (placedLiteral 1 0).decimal.value = d.value := by
      rw [value_placedLiteral, value, hzero, Nat.cast_zero, zero_div, zero_mul]
    exact ⟨_, 1, isPlaced_placedLiteral 1 0, .inl ⟨by decide, Nat.one_ne_zero, hvalue⟩⟩
  · next hne =>
    extract_lets ds e
    obtain ⟨core, zeros, hd⟩ := Significant.exists_of_ne_zero hne
    have hds : ds = numeral core := hd.dropZeros_numeral
    have hdigits : ∀ c ∈ ds, c.isDigit = true := hds ▸ isDigit_of_mem_numeral
    have hnil : ds ≠ [] := hds ▸ numeral_ne_nil core
    have hfront : ds.head? ≠ some '0' := hds ▸ head?_numeral hd.core_ne_zero
    have hlength : ds.length = digitCount core := by rw [hds, digitCount]
    have hcount := hd.digitCount_eq
    have hcore : Nat.ofDigitChars 10 ds 0 = core := by rw [hds, ofDigitChars_numeral]
    split
    · obtain ⟨n, places, htext, hplaced, hplaces, hvalue⟩ :=
        exists_literal_positional hdigits hnil hfront (e + 1)
      have hplace : e + 1 - ds.length = d.exponent + zeros := by
        rw [hlength]
        omega
      rw [hcore, hplace, ← value_eq_core hd] at hvalue
      exact ⟨n, places, hplaced, .inl ⟨htext.symm, hplaces, hvalue⟩⟩
    · obtain ⟨n, htext, hplaced, hvalue⟩ := exists_literal_pointed hdigits hnil hfront
      have hplace : 1 - (ds.length : Int) + e = d.exponent + zeros := by
        rw [hlength]
        omega
      refine ⟨n, _, hplaced, .inr ⟨l.exponentWidth, e, by rw [htext], ?_⟩⟩
      rw [hvalue, hcore, mul_assoc, ← zpow_add₀ (by norm_num), hplace, value_eq_core hd]

theorem readUnsigned?_layout (l : Layout) (d : Decimal) :
    ∃ d', readUnsigned? (l.text d) = some d' ∧ d'.value = d.value := by
  obtain ⟨n, places, -, ⟨htext, -, hvalue⟩ | ⟨width, e, htext, hvalue⟩⟩ :=
    exists_literal_layout l d
  · exact ⟨n.decimal, by rw [htext, n.readUnsigned?_text], hvalue⟩
  · have hread := n.readUnsigned?_append ('e' :: exponentText width e) (by simp)
    rw [power?_exponentText, ← htext, Option.map_some] at hread
    refine ⟨_, hread, ?_⟩
    rw [← hvalue, value, value, add_comm, zpow_add₀ (by norm_num), mul_assoc]

end FormulaTable.Decimal
