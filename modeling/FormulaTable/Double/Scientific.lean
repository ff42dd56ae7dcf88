import FormulaTable.Double.Text

/-! A double with a given number of significant digits, written with a power of ten or, where
that is shorter to read, without one. -/

namespace FormulaTable.Double

/-- The count of `10 ^ (-p)` and the power of ten that give the magnitude of `x` to `p + 1`
significant digits, ties to even. -/
def significant (p : Nat) (x : Float) : Nat × Int :=
  if units x = 0 then (0, 0)
  else
    let k := Decimal.magnitude (units x) unitsPerOne
    let shift : Int := p - k
    let n := Rounding.toEven (units x * 10 ^ shift.toNat) (unitsPerOne * 10 ^ (-shift).toNat)
    if n < 10 ^ (p + 1) then (n, k) else (10 ^ p, k + 1)

def withPoint (showPoint : Bool) (places : Nat) (ds : List Char) : List Char :=
  if places = 0 then if showPoint then ds ++ ['.'] else ds
  else ds.take (ds.length - places) ++ '.' :: ds.drop (ds.length - places)

def powerText (e : Int) : List Char := 'e' :: Decimal.exponentText 2 e

def scientificText (showPoint : Bool) (p : Nat) (x : Float) : List Char :=
  let (n, k) := significant p x
  withPoint showPoint p (Decimal.padLeft (p + 1) '0' (Decimal.numeral n)) ++ powerText k

def fixedText (showPoint : Bool) (places : Nat) (x : Float) : List Char :=
  withPoint showPoint places
    (Decimal.padLeft (places + 1) '0' (Decimal.numeral (countOf places x)))

def dropFraction (cs : List Char) : List Char := if cs.contains '.' then dropEnd cs else cs
where
  dropEnd (cs : List Char) : List Char :=
    let kept := (cs.reverse.dropWhile (· == '0')).reverse
    if kept.getLast? = some '.' then kept.dropLast else kept

/-- The magnitude to `p` significant digits, with a power of ten below `10 ^ (-4)` and where the
digits do not reach the point. Superfluous zeros are dropped unless `full`. -/
def generalText (full : Bool) (p : Nat) (x : Float) : List Char :=
  let p := max p 1
  let (n, k) := significant (p - 1) x
  let ds := Decimal.padLeft p '0' (Decimal.numeral n)
  let trimmed (cs : List Char) : List Char := if full then cs else dropFraction cs
  if -4 ≤ k ∧ k < p then
    let places := (p - 1 - k).toNat
    trimmed (withPoint full places (Decimal.padLeft (places + 1) '0' ds))
  else trimmed (withPoint full (p - 1) ds) ++ powerText k

end FormulaTable.Double
