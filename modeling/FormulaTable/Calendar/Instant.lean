import FormulaTable.Calendar.TimeStyle

/-! Instants as seconds since the start of 1970, in universal time. -/

namespace FormulaTable

def Day.ofCount? (days : Nat) : Option Day :=
  let cycles := days / 146097
  let days := days % 146097
  let centuries := min 3 (days / 36524)
  let days := days - 36524 * centuries
  let fours := days / 1461
  let days := days % 1461
  let years := min 3 (days / 365)
  Day.inYear? (400 * cycles + 100 * centuries + 4 * fours + years + 1) (days - 365 * years)

namespace Instant

def epochDays : Nat := 719162

def day? (seconds : Int) : Option Day :=
  let days := seconds.fdiv 86400 + epochDays
  if days < 0 then none else Day.ofCount? days.toNat

def clock (seconds : Int) : Clock :=
  let s := (seconds.fmod 86400).toNat
  ⟨s / 3600, s / 60 % 60, s % 60⟩

def text (seconds : Int) : String :=
  ((day? seconds).elim "" DateStyle.iso.render) ++ " " ++
    TimeStyle.hourMinuteSecond.render (clock seconds)

def textWithMillis (seconds : Int) (millis : Nat) : String :=
  text seconds ++ "," ++ DateStyle.padded 3 millis

end Instant
end FormulaTable
