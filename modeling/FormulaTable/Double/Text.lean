import FormulaTable.Decimal.Layout
import FormulaTable.Decimal.Reading
import FormulaTable.Double.Shortest

/-! Texts of doubles: the shortest one that reads back, and a fixed number of places. -/

namespace FormulaTable.Double
open Decimal (Layout)

def natural : Layout := ⟨-4, 15, 2⟩

def signed (x : Float) (cs : List Char) : List Char := if isNegative x then '-' :: cs else cs

def specialText (x : Float) : List Char :=
  if x.isNaN then "nan".toList else signed x "inf".toList

def naturalText (x : Float) : List Char :=
  if x.isFinite then signed x (natural.text (shortest x)) else specialText x

/-- The exact value rounded to `places` digits after the point, ties to even. The sign stays
also where the digits are all zero. -/
def placedText (places : Nat) (x : Float) : List Char :=
  if x.isFinite then signed x (Decimal.placedText places (countOf places x)) else specialText x

def read? (s : List Char) : Option Float :=
  (Decimal.read? s).map fun (negative, d) => ofDecimal negative d

end FormulaTable.Double
