import FormulaTable.Calendar.Clock
import FormulaTable.Calendar.DateStyle

/-! How a time of day is shown. -/

namespace FormulaTable

inductive TimeStyle
  | hourMinute
  | hourMinuteSecond
  | halfDay
  | halfDaySecond
  | englishHalfDay
  | englishHalfDaySecond
deriving DecidableEq, Repr

namespace TimeStyle

def all : List TimeStyle :=
  [hourMinute, hourMinuteSecond, halfDay, halfDaySecond, englishHalfDay, englishHalfDaySecond]

def name : TimeStyle → String
  | hourMinute => "hh_mm"
  | hourMinuteSecond => "hh_mm_ss"
  | halfDay => "h_mm_a"
  | halfDaySecond => "h_mm_ss_a"
  | englishHalfDay => "en_h_mm_a"
  | englishHalfDaySecond => "en_h_mm_ss_a"

def isJoint (c : Char) : Bool := Text.isBlank c || c == '-'

def underscored : List Char → List Char
  | [] => []
  | c :: rest =>
    if isJoint c then
      match rest with
      | d :: _ => if isJoint d then underscored rest else '_' :: underscored rest
      | [] => ['_']
    else c :: underscored rest

def ofText (s : Option String) : TimeStyle :=
  let key := String.ofList (underscored (Text.trimList (s.getD "").toList))
  (all.find? (·.name == Text.lower key)).getD hourMinute

theorem ofText_name (style : TimeStyle) : ofText (some style.name) = style := by
  cases style <;> decide +kernel

open DateStyle (padded)

def halfHour (c : Clock) : String := padded 1 (if c.hour % 12 = 0 then 12 else c.hour % 12)

def halfName (c : Clock) : String := if c.hour < 12 then " AM" else " PM"

def render (style : TimeStyle) (c : Clock) : String :=
  match style with
  | hourMinute => padded 2 c.hour ++ ":" ++ padded 2 c.minute
  | hourMinuteSecond => padded 2 c.hour ++ ":" ++ padded 2 c.minute ++ ":" ++ padded 2 c.second
  | halfDay | englishHalfDay => halfHour c ++ ":" ++ padded 2 c.minute ++ halfName c
  | halfDaySecond | englishHalfDaySecond =>
    halfHour c ++ ":" ++ padded 2 c.minute ++ ":" ++ padded 2 c.second ++ halfName c

def showText (style : TimeStyle) (s : String) : String :=
  match Clock.read? s with
  | some c => style.render c
  | none => Text.trim s

end TimeStyle
end FormulaTable
