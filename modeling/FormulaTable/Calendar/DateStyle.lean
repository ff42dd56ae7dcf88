import FormulaTable.Calendar.DayText
import FormulaTable.Decimal.Basic
import FormulaTable.Text.Letter

/-! How a day is shown. -/

namespace FormulaTable

inductive DateStyle
  | iso
  | short
  | long
deriving DecidableEq, Repr

namespace DateStyle

def all : List DateStyle := [iso, short, long]

def name : DateStyle → String
  | iso => "iso"
  | short => "short"
  | long => "long"

def ofText (s : Option String) : DateStyle :=
  (all.find? (·.name == Text.lower (Text.trim (s.getD "")))).getD iso

theorem ofText_name (style : DateStyle) : ofText (some style.name) = style := by
  cases style <;> decide +kernel

def monthNames : List String :=
  ["January", "February", "March", "April", "May", "June", "July", "August", "September",
    "October", "November", "December"]

def padded (width n : Nat) : String :=
  String.ofList (Decimal.padLeft width '0' (Decimal.numeral n))

def render (style : DateStyle) (d : Day) : String :=
  match style with
  | iso => padded 4 d.year ++ "-" ++ padded 2 d.month ++ "-" ++ padded 2 d.day
  | short => padded 1 d.month ++ "/" ++ padded 1 d.day ++ "/" ++ padded 2 (d.year % 100)
  | long => monthNames[d.month - 1]?.getD "" ++ " " ++ padded 1 d.day ++ ", " ++ padded 1 d.year

def showText (style : DateStyle) (s : String) : String :=
  match Day.read? s with
  | some d => style.render d
  | none => Text.trim s

end DateStyle
end FormulaTable
