/-! Quotients of natural numbers rounded to a whole number. -/

-- A power of a natural number or an integer is the built-in one in every module, whether or
-- not it sees another instance: a bound such as `2 ^ 63` is one term in programs and proofs.
attribute [default_instance 20000, instance (2000)] instPowNat

namespace FormulaTable.Rounding

/-- The whole number nearest to `num / den`; of two equally near ones the even one. -/
def toEven (num den : Nat) : Nat :=
  let q := num / den
  let r := num % den
  if 2 * r < den then q else if den < 2 * r then q + 1 else q + q % 2

/-- The whole number nearest to `num / den`; of two equally near ones the greater one. -/
def halfUp (num den : Nat) : Nat := (2 * num + den) / (2 * den)

theorem toEven_mul_right (n : Nat) {den : Nat} (h : 0 < den) : toEven (n * den) den = n := by
  simp [toEven, Nat.mul_div_cancel _ h, h]

theorem toEven_within_half (num : Nat) {den : Nat} (h : 0 < den) :
    2 * num ≤ (2 * toEven num den + 1) * den ∧ 2 * toEven num den * den ≤ 2 * num + den := by
  have hd := Nat.div_add_mod num den
  have hm := Nat.mod_lt num h
  have hq : num / den * den = den * (num / den) := Nat.mul_comm _ _
  simp only [toEven]
  split
  · constructor <;> grind
  · split
    · constructor <;> grind
    · rcases Nat.mod_two_eq_zero_or_one (num / den) with h2 | h2 <;>
        rw [h2] <;> constructor <;> grind

theorem halfUp_mul_right (n : Nat) {den : Nat} (h : 0 < den) : halfUp (n * den) den = n := by
  rw [halfUp, Nat.div_eq_iff (by omega)]
  constructor <;> grind

end FormulaTable.Rounding
