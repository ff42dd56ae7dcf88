import FormulaTable.Rounding

/-! Decimal numerals: the digits of a natural number, and decimals `digits · 10 ^ exponent`. -/

namespace FormulaTable

/-- The unsigned decimal `digits · 10 ^ exponent`. -/
structure Decimal where
  digits : Nat
  exponent : Int
deriving DecidableEq, Repr

namespace Decimal

def num (d : Decimal) : Nat := d.digits * 10 ^ d.exponent.toNat

def den (d : Decimal) : Nat := 10 ^ (-d.exponent).toNat

theorem den_pos (d : Decimal) : 0 < d.den := Nat.pow_pos (by decide)

def numeral (n : Nat) : List Char := Nat.toDigits 10 n

def digitCount (n : Nat) : Nat := (numeral n).length

theorem numeral_of_lt {n : Nat} (h : n < 10) : numeral n = [n.digitChar] :=
  Nat.toDigits_of_lt_base h

theorem numeral_of_le {n : Nat} (h : 10 ≤ n) :
    numeral n = numeral (n / 10) ++ [(n % 10).digitChar] :=
  Nat.toDigits_of_base_le (by decide) h

def wholeText (negative : Bool) (n : Nat) : List Char :=
  if negative then '-' :: numeral n else numeral n

def intText (n : Int) : List Char := wholeText (n < 0) n.natAbs

def padLeft (width : Nat) (fill : Char) (cs : List Char) : List Char :=
  List.replicate (width - cs.length) fill ++ cs

/-- The exponent `k` with `10 ^ k ≤ num / den < 10 ^ (k + 1)`, for positive `num` and `den`. -/
def magnitude (num den : Nat) : Int :=
  let k : Int := (digitCount num : Int) - digitCount den
  if den * 10 ^ k.toNat ≤ num * 10 ^ (-k).toNat then k else k - 1

def countOf (places : Nat) (d : Decimal) : Nat :=
  Rounding.halfUp (d.num * 10 ^ places) d.den

/-- The text of `count · 10 ^ (-places)` with exactly `places` digits after the point. -/
def placedText (places count : Nat) : List Char :=
  let whole := numeral (count / 10 ^ places)
  if places = 0 then whole
  else whole ++ '.' :: padLeft places '0' (numeral (count % 10 ^ places))

end Decimal
end FormulaTable
