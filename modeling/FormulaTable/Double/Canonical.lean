import FormulaTable.Double.Text

/-! The canonical text of a number: whole numbers without a point, others with at most six
places, and a power of ten from `10 ^ 21` on. -/

namespace FormulaTable.Double

def powerThreshold : Nat := 10 ^ 21

def dropPlaces (cs : List Char) : List Char :=
  ((cs.reverse.dropWhile (· == '0')).dropWhile (· == '.')).reverse

def canonicalText (x : Float) : List Char :=
  if isIntegral x then
    if powerThreshold ≤ wholePart x then naturalText x else Decimal.intText (toInt x)
  else dropPlaces (placedText 6 x)

def keptText (x : Float) : List Char :=
  if isIntegral x && wholePart x < powerThreshold then Decimal.intText (toInt x)
  else naturalText x

theorem keptText_of_isIntegral {x : Float} (h : isIntegral x = true) :
    keptText x = canonicalText x := by
  by_cases hw : powerThreshold ≤ wholePart x
  · simp [keptText, canonicalText, h, hw, Nat.not_lt.mpr hw]
  · simp [keptText, canonicalText, h, hw, Nat.lt_of_not_le hw]

end FormulaTable.Double
