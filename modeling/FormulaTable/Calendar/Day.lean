/-! Days of the Gregorian calendar in the years 1 to 9999, by month and by week. -/

namespace FormulaTable

structure Day where
  year : Nat
  month : Nat
  day : Nat
deriving DecidableEq, Repr

namespace Day

def isLeap (year : Nat) : Bool := year % 4 == 0 && (year % 100 != 0 || year % 400 == 0)

def monthLengths (year : Nat) : List Nat :=
  [31, if isLeap year then 29 else 28, 31, 30, 31, 30, 31, 31, 30, 31, 30, 31]

def monthLength (year month : Nat) : Nat :=
  if month = 0 then 0 else (monthLengths year)[month - 1]?.getD 0

def isValid (d : Day) : Bool :=
  1 ≤ d.year && d.year ≤ 9999 && 1 ≤ d.day && d.day ≤ monthLength d.year d.month

def of? (year month day : Nat) : Option Day :=
  if Day.isValid ⟨year, month, day⟩ then some ⟨year, month, day⟩ else none

theorem of?_eq_some {y m n : Nat} {d : Day} (h : of? y m n = some d) :
    d = ⟨y, m, n⟩ ∧ d.isValid = true := by
  unfold of? at h
  split at h
  · next hv => cases h; exact ⟨rfl, hv⟩
  · cases h

def before (year : Nat) : Nat :=
  let y := year - 1
  365 * y + y / 4 - y / 100 + y / 400

def firstWeekday (year : Nat) : Nat := before year % 7

def yearLength (year : Nat) : Nat := if isLeap year then 366 else 365

def inYear? (year : Nat) (days : Nat) : Option Day :=
  walk 1 days (monthLengths year)
where
  walk (month days : Nat) : List Nat → Option Day
    | [] => none
    | n :: rest => if days < n then of? year month (days + 1) else walk (month + 1) (days - n) rest

/-- The week holds a day: weeks begin on Monday, and the first is that of the first Thursday. -/
def hasWeek (year week : Nat) : Bool :=
  1 ≤ week && (week ≤ 52 ||
    (week == 53 && (firstWeekday year == 3 || (firstWeekday year == 2 && isLeap year))))

def ofWeek? (year week weekday : Nat) : Option Day :=
  if year = 0 ∨ !hasWeek year week ∨ weekday = 0 ∨ 7 < weekday then none
  else
    let w := firstWeekday year
    -- Days from the Monday in the week of the first of January.
    let days := (if 3 < w then 7 else 0) + 7 * (week - 1) + (weekday - 1)
    if days < w then inYear? (year - 1) (yearLength (year - 1) + days - w)
    else if days - w < yearLength year then inYear? year (days - w)
    else inYear? (year + 1) (days - w - yearLength year)

end Day
end FormulaTable
