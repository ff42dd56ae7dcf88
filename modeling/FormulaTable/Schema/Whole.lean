import FormulaTable.Cell.Basic
import FormulaTable.Decimal.Reading
import FormulaTable.Double.Exact
import FormulaTable.Schema.Problem
import FormulaTable.Text.Blank

/-! Whole numbers in a configuration: as such, as flags, as doubles without a fraction, or as
texts. -/

namespace FormulaTable.Schema

def longestNumeral : Nat := 4300

/-- How many characters at the start of a text make up a numeral; one that begins with a zero
does not count. -/
def numeralLength (s : List Char) : Nat :=
  let digits := match s with | '-' :: rest => rest | s => s
  if digits.head? = some '0' then 0 else s.length - (digits.dropWhile Char.isDigit).length

/-- The digits of a numeral from its first significant one on, or from a minus sign among the
zeros. Underscores may stand between the leading zeros; of zeros alone the last stays, and so
does one before a point. -/
def dropLeadingZeros (before : Char) : List Char → Option (List Char)
  | [] => some [before]
  | c :: rest =>
    if c = '0' ∨ c = '_' then dropLeadingZeros c rest
    else if c = '.' then some (before :: c :: rest)
    else if c = '-' ∨ c.isDigit then some (c :: rest)
    else none

def startingDigit? : List Char → Option (List Char)
  | [] => none
  | c :: rest =>
    if c = '0' then dropLeadingZeros c rest
    else if c.isDigit then some (c :: rest)
    else none

def significant? : List Char → Option (List Char)
  | '+' :: rest => startingDigit? rest
  | '-' :: rest => (startingDigit? rest).map ('-' :: ·)
  | s => startingDigit? s

def dropZeroFraction (s : List Char) : List Char :=
  let places := (s.dropWhile (· ≠ '.')).drop 1
  if !places.isEmpty && places.all (· == '0') then s.takeWhile (· ≠ '.') else s

def underscoresInside (s : List Char) : Bool :=
  s.head? != some '_' && s.getLast? != some '_' &&
    (s.zip (s.drop 1)).all fun (a, b) => !(a == '_' && b == '_')

def dropUnderscores (s : List Char) : List Char :=
  if underscoresInside s then s.filter (· ≠ '_') else s

def bareNumeral? (s : List Char) : Option (List Char) :=
  (significant? (Text.trimBy Text.isWhiteSpace s)).map (dropUnderscores ∘ dropZeroFraction)

def ofDigits? (s : List Char) : Option Nat :=
  match s with
  | ['0'] => some 0
  | c :: _ =>
    if c ≠ '0' ∧ s.all Char.isDigit then some (Decimal.ofDigits (s.filterMap Text.asciiDigit?))
    else none
  | [] => none

def ofNumeral? : List Char → Option Int
  | '-' :: digits => (ofDigits? digits).map fun n => -(n : Int)
  | digits => (ofDigits? digits).map Int.ofNat

def readWholeText (s : List Char) : Except Cause Int :=
  if longestNumeral < numeralLength s then .error .wholeTooLong
  else
    match bareNumeral? s with
    | none => .error .unreadableWhole
    | some numeral =>
      if longestNumeral < numeralLength numeral then .error .wholeTooLong
      else
        match ofNumeral? numeral with
        | some n => .ok n
        | none => .error .unreadableWhole

def doubleBound : Nat := 2 ^ 63

def readWholeDouble (x : Float) : Except Cause Int :=
  if !x.isFinite then .error .notFinite
  else if !Double.isIntegral x then .error .fractional
  else if doubleBound ≤ Double.wholePart x then .error .wholeTooLong
  else .ok (Double.toInt x)

def readWhole : Cell → Except Cause Int
  | .whole n => .ok n
  | .flag b => .ok (if b then 1 else 0)
  | .number x => readWholeDouble x
  | .text s => readWholeText s.toList
  | _ => .error .notWhole

def readPositive (c : Cell) : Except Cause Nat := do
  let n ← readWhole c
  if 0 < n then .ok n.toNat else .error .notGreater

end FormulaTable.Schema
