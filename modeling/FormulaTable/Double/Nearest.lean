import FormulaTable.Decimal.Basic
import FormulaTable.Double.Exact

/-! The double nearest to a rational or decimal number, ties to the even significand. -/

namespace FormulaTable.Double

def infinityBits : Nat := 2047 * 2 ^ 52

/-- Bits of the double nearest to `num / den`. With `whole` the quotient in units of
`2 ^ (-1074)`, doubles of its binade lie `2 ^ shift` units apart; the exponent field and the
rounded significand then add up, the hidden bit carrying into the field. -/
def nearestBits (num den : Nat) : Nat :=
  let whole := num * unitsPerOne / den
  let shift := whole.log2 - 52
  min infinityBits (shift * 2 ^ 52 + Rounding.toEven (num * unitsPerOne) (den * 2 ^ shift))

theorem nearestBits_zero {den : Nat} (h : 0 < den) : nearestBits 0 den = 0 := by
  have := Rounding.toEven_mul_right 0 h
  simp_all [nearestBits]

theorem nearestBits_le (num den : Nat) : nearestBits num den ≤ infinityBits :=
  Nat.min_le_left ..

def ofMagnitude (negative : Bool) (magnitude : Nat) : Float :=
  Float.ofBits (UInt64.ofNat (if negative then 2 ^ 63 + magnitude else magnitude))

/-- The double nearest to a decimal. A value from `10 ^ 400` on is infinite and one below
`10 ^ (-400)` is zero, whatever the digits. -/
def ofDecimal (negative : Bool) (d : Decimal) : Float :=
  let top : Int := Decimal.digitCount d.digits + d.exponent
  ofMagnitude negative <|
    if d.digits = 0 then 0
    else if 400 < top then infinityBits
    else if top < -400 then 0
    else nearestBits d.num d.den

def ofInt? (n : Int) : Option Float :=
  let magnitude := nearestBits n.natAbs 1
  if magnitude = infinityBits then none else some (ofMagnitude (n < 0) magnitude)

end FormulaTable.Double
