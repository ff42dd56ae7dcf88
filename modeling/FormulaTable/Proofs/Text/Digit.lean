import FormulaTable.Proofs.Decimal.Numeral
import Mathlib.Data.List.Induction

/-! Digits of all scripts, the numbers that they make up, and the characters that are none. -/

namespace FormulaTable.Text

theorem zeroDigits_apart {z : Nat} (h : z ∈ zeroDigits) :
    0x20 < z ∧ z + 9 < 0x85 ∨ 0xA0 < z ∧ z + 9 < 0x1680 ∨ 0x1680 < z ∧ z + 9 < 0x2000 ∨
      0x3000 < z := by
  revert z
  decide

theorem isBlank_of_digitValue? {c : Char} {d : Nat} (h : digitValue? c = some d) :
    isBlank c = false := by
  obtain ⟨z, hz, -⟩ := Option.map_eq_some_iff.mp h
  have hrange := List.find?_some hz
  have hapart := zeroDigits_apart (List.mem_of_find?_eq_some hz)
  simp only [Bool.and_eq_true, decide_eq_true_eq] at hrange
  simp only [isBlank, Bool.or_eq_false_iff, Bool.and_eq_false_iff, decide_eq_false_iff_not,
    beq_eq_false_iff_ne]
  omega

/-- The characters are digits of any script, and they make up the number. -/
def Spells (ds : List Char) (n : Nat) : Prop :=
  ∃ vs, ds.map digitValue? = vs.map some ∧ Decimal.ofDigits vs = n

theorem Spells.exists_digitValue? {ds : List Char} {n : Nat} (h : Spells ds n) :
    ∀ c ∈ ds, ∃ v, digitValue? c = some v := by
  obtain ⟨vs, hvs, -⟩ := h
  intro c hc
  have hmem := List.mem_map_of_mem (f := digitValue?) hc
  rw [hvs] at hmem
  obtain ⟨v, -, hv⟩ := List.mem_map.mp hmem
  exact ⟨v, hv.symm⟩

theorem Spells.mem_ne {ds : List Char} {n : Nat} {c : Char} (h : Spells ds n)
    (hc : digitValue? c = none) : ∀ d ∈ ds, d ≠ c := by
  rintro d hd rfl
  obtain ⟨v, hv⟩ := h.exists_digitValue? d hd
  rw [hc] at hv
  cases hv

theorem Spells.lt {ds : List Char} {n : Nat} (h : Spells ds n) : n < 10 ^ ds.length := by
  obtain ⟨vs, hvs, rfl⟩ := h
  induction vs using List.reverseRecOn generalizing ds with
  | nil => exact Nat.pow_pos (by decide)
  | append_singleton vs v ih =>
    rw [List.map_append] at hvs
    obtain ⟨front, back, rfl, hfront, hback⟩ := List.map_eq_append_iff.mp hvs
    obtain ⟨c, rfl, hc⟩ := List.map_eq_singleton_iff.mp hback
    have hv := digitValue?_lt hc
    have hlt := ih hfront
    have hvalue : Decimal.ofDigits (vs ++ [v]) = 10 * Decimal.ofDigits vs + v := by
      rw [Decimal.ofDigits, List.foldl_append]
      rfl
    rw [hvalue, List.length_append, List.length_singleton, Nat.pow_succ]
    omega

theorem spells_of_isDigit {ds : List Char} (h : ∀ c ∈ ds, c.isDigit = true) :
    Spells ds (Nat.ofDigitChars 10 ds 0) := by
  have hvalues : ds.map digitValue? = (ds.map (·.toNat - 48)).map some := by
    rw [List.map_map]
    refine List.map_congr_left fun c hc => ?_
    rw [Formula.digitValue?_of_isDigit (h c hc), Function.comp_apply]
  exact ⟨_, hvalues, Decimal.ofDigits_map ds⟩

end FormulaTable.Text
