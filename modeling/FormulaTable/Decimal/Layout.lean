import FormulaTable.Decimal.Basic

/-! Writing a decimal with a point or with a power of ten. -/

namespace FormulaTable.Decimal

structure Layout where
  least : Int
  greatest : Int
  exponentWidth : Nat

def dropZeros (cs : List Char) : List Char := (cs.reverse.dropWhile (· == '0')).reverse

/-- The digits with the point after the first `point` of them, zeros filling up, and at least
one digit on either side of the point. -/
def positional (ds : List Char) (point : Int) : List Char :=
  if point ≤ 0 then '0' :: '.' :: List.replicate (-point).toNat '0' ++ ds
  else
    let n := point.toNat
    if ds.length ≤ n then ds ++ List.replicate (n - ds.length) '0' ++ ['.', '0']
    else ds.take n ++ '.' :: ds.drop n

def pointed : List Char → List Char
  | [] => []
  | [d] => [d]
  | d :: rest => d :: '.' :: rest

def exponentText (width : Nat) (e : Int) : List Char :=
  (if e < 0 then '-' else '+') :: padLeft width '0' (numeral e.natAbs)

def Layout.text (l : Layout) (d : Decimal) : List Char :=
  if d.digits = 0 then ['0', '.', '0']
  else
    let ds := dropZeros (numeral d.digits)
    let e : Int := (digitCount d.digits : Int) - 1 + d.exponent
    if l.least ≤ e ∧ e ≤ l.greatest then positional ds (e + 1)
    else pointed ds ++ 'e' :: exponentText l.exponentWidth e

end FormulaTable.Decimal
