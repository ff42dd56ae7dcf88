import FormulaTable.Cell.Text
import FormulaTable.Double.Canonical
import FormulaTable.Text.Blank

/-! Cells as numbers and as texts. As a number a cell that reads as none counts as zero. -/

namespace FormulaTable.Cell

def orZero (x : Float) : Float := if x.isFinite then x else 0

def numberOfText (s : String) : Float :=
  match Double.read? (Text.trimList s.toList) with
  | some x => orZero x
  | none => 0

def toNumber : Cell → Except CellError Float
  | empty => .ok 0
  | whole n => .ok ((Double.ofInt? n).getD 0)
  | number x => .ok (orZero x)
  | c => do
    let s ← fullText c
    .ok (numberOfText s)

/-- A whole number below `10 ^ 21` in digits, else the nearest double as `write` has it. -/
def wholeTextBy (write : Float → List Char) (n : Int) : Except CellError String :=
  if n.natAbs < Double.powerThreshold then .ok (String.ofList (Decimal.intText n))
  else
    match Double.ofInt? n with
    | some x => .ok (String.ofList (write x))
    | none => .error .beyondDoubles

def toText : Cell → Except CellError String
  | empty => .ok ""
  | whole n => wholeTextBy Double.canonicalText n
  | number x => .ok (String.ofList (Double.canonicalText x))
  | c => fullText c

def toKeptText : Cell → Except CellError String
  | empty => .ok ""
  | whole n => wholeTextBy Double.naturalText n
  | number x => .ok (String.ofList (Double.keptText x))
  | c => fullText c

end FormulaTable.Cell
