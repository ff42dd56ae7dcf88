import FormulaTable.Double.Text
import FormulaTable.Text.Blank
import FormulaTable.Text.Letter

/-! Formats for the numbers of a column: a fixed number of places, thousands in groups, or a
percentage. A format is chosen by its name or by its pattern. -/

namespace FormulaTable

inductive NumberFormat
  | auto
  | fixed0
  | fixed1
  | fixed2
  | fixed3
  | fixed4
  | fixed5
  | fixed6
  | thousandFixed0
  | thousandFixed2
  | percentFixed2
deriving DecidableEq, Repr

namespace NumberFormat

def all : List NumberFormat :=
  [auto, fixed0, fixed1, fixed2, fixed3, fixed4, fixed5, fixed6, thousandFixed0, thousandFixed2,
    percentFixed2]

def name : NumberFormat → String
  | auto => "auto"
  | fixed0 => "fixed0"
  | fixed1 => "fixed1"
  | fixed2 => "fixed2"
  | fixed3 => "fixed3"
  | fixed4 => "fixed4"
  | fixed5 => "fixed5"
  | fixed6 => "fixed6"
  | thousandFixed0 => "thousandFixed0"
  | thousandFixed2 => "thousandFixed2"
  | percentFixed2 => "percentFixed2"

def label : NumberFormat → String
  | auto => "Automatic"
  | fixed0 => "Integer"
  | fixed1 => "1 decimal"
  | fixed2 => "2 decimals"
  | fixed3 => "3 decimals"
  | fixed4 => "4 decimals"
  | fixed5 => "5 decimals"
  | fixed6 => "6 decimals"
  | thousandFixed0 => "Thousands separator"
  | thousandFixed2 => "Thousands separator, 2 decimals"
  | percentFixed2 => "Percent, 2 decimals"

def pattern? : NumberFormat → Option String
  | auto => none
  | fixed0 => some "0"
  | fixed1 => some "0.0"
  | fixed2 => some "0.00"
  | fixed3 => some "0.000"
  | fixed4 => some "0.0000"
  | fixed5 => some "0.00000"
  | fixed6 => some "0.000000"
  | thousandFixed0 => some "#,##0"
  | thousandFixed2 => some "#,##0.00"
  | percentFixed2 => some "0.00%"

def places : NumberFormat → Nat
  | auto | fixed0 | thousandFixed0 => 0
  | fixed1 => 1
  | fixed2 | thousandFixed2 | percentFixed2 => 2
  | fixed3 => 3
  | fixed4 => 4
  | fixed5 => 5
  | fixed6 => 6

def grouping : NumberFormat → Bool
  | thousandFixed0 | thousandFixed2 => true
  | _ => false

def percent : NumberFormat → Bool
  | percentFixed2 => true
  | _ => false

theorem mem_all (f : NumberFormat) : f ∈ all := by cases f <;> decide

def named? (s : String) : Option NumberFormat := all.find? (·.name == s)

theorem named?_name (f : NumberFormat) : named? f.name = some f := by cases f <;> decide

def anyCase? (s : String) : Option NumberFormat :=
  all.find? fun f => Text.lower f.name == Text.lower s

def patterned? (s : String) : Option NumberFormat := all.find? (·.pattern? == some s)

def ofText? (s : String) : Option NumberFormat :=
  let key := Text.trim s
  if key.isEmpty then none else (anyCase? key).or (patterned? key)

def groupReversed : List Char → List Char
  | a :: b :: c :: d :: rest => a :: b :: c :: ',' :: groupReversed (d :: rest)
  | ds => ds

def grouped (ds : List Char) : List Char := (groupReversed ds.reverse).reverse

def countText (f : NumberFormat) (count : Nat) : List Char :=
  let text := Decimal.placedText f.places count
  let whole := text.takeWhile (· ≠ '.')
  (if f.grouping then grouped whole else whole) ++ text.dropWhile (· ≠ '.')

/-- The number shown, as a count of `10 ^ (-places)`: the shortest decimal of `x`, as a
percentage if so asked, rounded with halves away from zero. -/
def shownCount (f : NumberFormat) (x : Float) : Nat :=
  let d := Double.shortest x
  Decimal.countOf f.places (if f.percent then ⟨d.digits, d.exponent + 2⟩ else d)

def text? (f : NumberFormat) (x : Float) : Option String :=
  let unit := if f.percent then ['%'] else []
  if x.isNaN then some (String.ofList ("NaN".toList ++ unit))
  else if x.isFinite then
    some (String.ofList (Double.signed x (f.countText (f.shownCount x) ++ unit)))
  else none

/-- The format that a name stands for when a number is shown. The automatic format, asked for
under exactly its name, leaves the number as it is. -/
def forShowing? (s : String) : Option NumberFormat :=
  if s.isEmpty ∨ s = auto.name then none else anyCase? s

inductive ShowError
  | beyondDoubles
  | infinite
deriving DecidableEq, Repr

def showDouble (f : NumberFormat) (x : Float) : Except ShowError String :=
  match f.text? x with
  | some s => .ok s
  | none => .error .infinite

def showWhole (f : NumberFormat) (n : Int) : Except ShowError String :=
  match Double.ofInt? n with
  | some x => f.showDouble x
  | none => .error .beyondDoubles

end NumberFormat
end FormulaTable
