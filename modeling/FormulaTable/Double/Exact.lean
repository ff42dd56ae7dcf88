import FormulaTable.Rounding

/-! The exact value of a finite double: every one is a whole multiple of `2 ^ (-1074)`. -/

namespace FormulaTable.Double

def bits (x : Float) : Nat := x.toBits.toNat

def isNegative (x : Float) : Bool := 2 ^ 63 ≤ bits x

def exponentField (x : Float) : Nat := bits x / 2 ^ 52 % 2 ^ 11

def fraction (x : Float) : Nat := bits x % 2 ^ 52

def significand (x : Float) : Nat :=
  if exponentField x = 0 then fraction x else 2 ^ 52 + fraction x

/-- Distance to the next larger double, in units of `2 ^ (-1074)`. -/
def gap (x : Float) : Nat := 2 ^ (exponentField x - 1)

/-- The magnitude of a finite double in units of `2 ^ (-1074)`. -/
def units (x : Float) : Nat := significand x * gap x

def finestPlace : Nat := 1074

def unitsPerOne : Nat := 2 ^ finestPlace

def isIntegral (x : Float) : Bool := x.isFinite && units x % unitsPerOne == 0

def wholePart (x : Float) : Nat := units x / unitsPerOne

def toInt (x : Float) : Int :=
  if isNegative x then -(wholePart x : Int) else wholePart x

theorem unitsPerOne_pos : 0 < unitsPerOne := Nat.two_pow_pos finestPlace

end FormulaTable.Double
