import FormulaTable.Double.Nearest

/-! The shortest decimal of a finite double: the fewest digits that read back as the same
double, and of those the nearest to its value. -/

namespace FormulaTable.Double

/-- The double with the magnitude of `x` is the nearest to the decimal. -/
def ReadsBack (x : Float) (d : Decimal) : Prop := nearestBits d.num d.den = bits x % 2 ^ 63

instance (x : Float) (d : Decimal) : Decidable (ReadsBack x d) :=
  inferInstanceAs (Decidable (_ = _))

/-- Among the two multiples of `10 ^ p` next to the magnitude of `x`, the nearest that reads
back as that magnitude; at equal distance the even one. -/
def hit? (x : Float) (p : Int) : Option Decimal :=
  let num := units x * 10 ^ (-p).toNat
  let den := unitsPerOne * 10 ^ p.toNat
  let below : Decimal := ⟨num / den, p⟩
  let above : Decimal := ⟨num / den + 1, p⟩
  if ReadsBack x below then
    if ReadsBack x above then some ⟨Rounding.toEven num den, p⟩ else some below
  else if ReadsBack x above then some above
  else none

def firstHit (x : Float) : Nat → Int → Decimal
  | 0, p => ⟨units x * 10 ^ (-p).toNat / unitsPerOne, p⟩
  | fuel + 1, p => (hit? x p).getD (firstHit x fuel (p - 1))

/-- The shortest decimal of the magnitude of `x`. The grid of `10 ^ (-1074)` holds every
double, so the search ends there at the latest. -/
def shortest (x : Float) : Decimal :=
  if units x = 0 then ⟨0, 0⟩
  else
    let p := Decimal.magnitude (units x) unitsPerOne
    firstHit x (p + finestPlace).toNat p

def countOf (places : Nat) (x : Float) : Nat :=
  Rounding.toEven (units x * 10 ^ places) unitsPerOne

end FormulaTable.Double
