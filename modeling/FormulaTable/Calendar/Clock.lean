import FormulaTable.Text.Blank
import FormulaTable.Text.DecimalDigit

/-! Times of day, read from the 24 hour clock or from the 12 hour clock with AM or PM. -/

namespace FormulaTable
open Text

structure Clock where
  hour : Nat
  minute : Nat
  second : Nat
deriving DecidableEq, Repr

namespace Clock

def twoDigits? : List Char → Option Nat
  | [c] => digitValue? c
  | [a, b] => do some (10 * (← asciiDigit? a) + (← digitValue? b))
  | _ => none

def sixtieth? (s : List Char) : Option Nat := do
  let n ← twoDigits? s
  if n < 60 then some n else none

def wholeDayHour? (s : List Char) : Option Nat := do
  let n ← twoDigits? s
  if n < 20 ∨ n < 24 ∧ s.all Char.isDigit then some n else none

def halfDayHour? (s : List Char) : Option Nat := do
  if s.all Char.isDigit then
    let n ← twoDigits? s
    if 1 ≤ n ∧ n ≤ 12 then some n else none
  else none

/-- The half of the day at the end of a text (`true` after noon) and the text before it, without
the blanks between. -/
def half? (s : List Char) : Option (Bool × List Char) :=
  match s.reverse with
  | m :: h :: rest =>
    if m ≠ 'm' ∧ m ≠ 'M' then none
    else
      let before := (rest.dropWhile isBlank).reverse
      if h = 'a' ∨ h = 'A' then some (false, before)
      else if h = 'p' ∨ h = 'P' then some (true, before)
      else none
  | _ => none

def fromHalf (afternoon : Bool) (hour : Nat) : Nat :=
  hour % 12 + if afternoon then 12 else 0

def colonParts : List Char → List (List Char)
  | [] => [[]]
  | c :: rest =>
    if c = ':' then [] :: colonParts rest
    else
      match colonParts rest with
      | part :: parts => (c :: part) :: parts
      | [] => [[c]]

def ofParts? : List (List Char) → Option Clock
  | [h, m] =>
    match half? m with
    | some (afternoon, m) => do
      some ⟨fromHalf afternoon (← halfDayHour? h), ← sixtieth? m, 0⟩
    | none => do some ⟨← wholeDayHour? h, ← sixtieth? m, 0⟩
  | [h, m, s] =>
    match half? s with
    | some (afternoon, s) => do
      some ⟨fromHalf afternoon (← halfDayHour? h), ← sixtieth? m, ← sixtieth? s⟩
    | none => do some ⟨← wholeDayHour? h, ← sixtieth? m, ← sixtieth? s⟩
  | _ => none

def read? (s : String) : Option Clock := ofParts? (colonParts (trimList s.toList))

end Clock
end FormulaTable
