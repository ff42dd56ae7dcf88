import FormulaTable.Calendar.DayText

/-!
# Days of the calendar

The Gregorian calendar by its own rules: which years are leap years, which months have 31 days and
which 30, and what is left for February. A day is valid just when the calendar has it and its year
has at most four digits, and only valid days are read.
-/

namespace FormulaTable.Day

def Leap (year : Nat) : Prop := 4 ∣ year ∧ (100 ∣ year → 400 ∣ year)

inductive MonthHas (year : Nat) : Nat → Nat → Prop
  | long {month : Nat} (h : month ∈ [1, 3, 5, 7, 8, 10, 12]) : MonthHas year month 31
  | short {month : Nat} (h : month ∈ [4, 6, 9, 11]) : MonthHas year month 30
  | leapFebruary (h : Leap year) : MonthHas year 2 29
  | february (h : ¬ Leap year) : MonthHas year 2 28

/-- The calendar, reckoned back to the first year, has the day. -/
def Gregorian (year month day : Nat) : Prop :=
  1 ≤ year ∧ 1 ≤ day ∧ ∃ days, MonthHas year month days ∧ day ≤ days

theorem isLeap_iff (year : Nat) : isLeap year = true ↔ Leap year := by
  simp only [isLeap, Leap, Bool.and_eq_true, Bool.or_eq_true, beq_iff_eq, bne_iff_ne]
  omega

theorem monthLength_of_monthHas {year month days : Nat} (h : MonthHas year month days) :
    monthLength year month = days := by
  cases h with
  | long h =>
    simp only [List.mem_cons, List.not_mem_nil, or_false] at h
    rcases h with rfl | rfl | rfl | rfl | rfl | rfl | rfl <;> rfl
  | short h =>
    simp only [List.mem_cons, List.not_mem_nil, or_false] at h
    rcases h with rfl | rfl | rfl | rfl <;> rfl
  | leapFebruary h => simp [monthLength, monthLengths, (isLeap_iff year).mpr h]
  | february h => simp [monthLength, monthLengths, mt (isLeap_iff year).mp h]

theorem monthLength_of_out {year month : Nat} (h : month = 0 ∨ 12 < month) :
    monthLength year month = 0 := by
  unfold monthLength
  split
  · rfl
  · have hlength : (monthLengths year).length ≤ month - 1 := by
      change 12 ≤ month - 1
      omega
    rw [List.getElem?_eq_none hlength, Option.getD_none]

theorem exists_monthHas {year month : Nat} (h : monthLength year month ≠ 0) :
    ∃ days, MonthHas year month days := by
  have hin : ¬ (month = 0 ∨ 12 < month) := mt monthLength_of_out h
  have hcases : month ∈ [1, 3, 5, 7, 8, 10, 12] ∨ month ∈ [4, 6, 9, 11] ∨ month = 2 := by
    simp only [List.mem_cons, List.not_mem_nil, or_false]
    omega
  rcases hcases with hlong | hshort | rfl
  · exact ⟨31, .long hlong⟩
  · exact ⟨30, .short hshort⟩
  · by_cases hleap : Leap year
    · exact ⟨29, .leapFebruary hleap⟩
    · exact ⟨28, .february hleap⟩

theorem isValid_iff {year month day : Nat} :
    isValid ⟨year, month, day⟩ = true ↔ Gregorian year month day ∧ year ≤ 9999 := by
  simp only [isValid, Bool.and_eq_true, decide_eq_true_eq]
  constructor
  · rintro ⟨⟨⟨hyear, htop⟩, hday⟩, hlength⟩
    obtain ⟨days, hhas⟩ := @exists_monthHas year month (by omega)
    rw [monthLength_of_monthHas hhas] at hlength
    exact ⟨⟨hyear, hday, days, hhas, hlength⟩, htop⟩
  · rintro ⟨⟨hyear, hday, days, hhas, hlength⟩, htop⟩
    rw [monthLength_of_monthHas hhas]
    exact ⟨⟨⟨hyear, htop⟩, hday⟩, hlength⟩

theorem of?_iff {year month day : Nat} (h : year ≤ 9999) :
    (of? year month day = some ⟨year, month, day⟩ ↔ Gregorian year month day) ∧
      (of? year month day = none ↔ ¬ Gregorian year month day) := by
  have hvalid : isValid ⟨year, month, day⟩ = true ↔ Gregorian year month day := by
    rw [isValid_iff, and_iff_left h]
  rw [of?, ← hvalid]
  split <;> simp_all

theorem MonthHas.month_le {year month days : Nat} (h : MonthHas year month days) :
    1 ≤ month ∧ month ≤ 12 ∧ days ≤ 31 := by
  cases h with
  | long h | short h =>
    simp only [List.mem_cons, List.not_mem_nil, or_false] at h
    omega
  | leapFebruary | february => omega

theorem isValid_of_of? {y m n : Nat} {d : Day} (h : of? y m n = some d) : d.isValid = true :=
  (of?_eq_some h).2

theorem isValid_of_walk {year : Nat} {lengths : List Nat} {month days : Nat} {d : Day}
    (h : inYear?.walk year month days lengths = some d) : d.isValid = true := by
  induction lengths generalizing month days with
  | nil => cases h
  | cons n rest ih =>
    rw [inYear?.walk] at h
    split at h
    · exact isValid_of_of? h
    · exact ih h

theorem isValid_of_ofWeek? {year week weekday : Nat} {d : Day}
    (h : ofWeek? year week weekday = some d) : d.isValid = true := by
  unfold ofWeek? at h
  split at h
  · cases h
  · dsimp only at h
    repeat' split at h
    all_goals exact isValid_of_walk h

theorem isValid_of_standard? {s : List Char} {d : Day} (h : standard? s = some d) :
    d.isValid = true := by
  unfold standard? at h
  obtain ⟨⟨y, s⟩, -, h⟩ := Option.bind_eq_some_iff.mp h
  dsimp only at h
  split at h
  · obtain ⟨⟨w, s⟩, -, h⟩ := Option.bind_eq_some_iff.mp h
    dsimp only at h
    split at h
    · exact isValid_of_ofWeek? h
    · obtain ⟨_, -, h⟩ := Option.bind_eq_some_iff.mp h
      obtain ⟨_, -, h⟩ := Option.bind_eq_some_iff.mp h
      exact isValid_of_ofWeek? h
  · obtain ⟨⟨m, s⟩, -, h⟩ := Option.bind_eq_some_iff.mp h
    obtain ⟨_, -, h⟩ := Option.bind_eq_some_iff.mp h
    obtain ⟨_, -, h⟩ := Option.bind_eq_some_iff.mp h
    exact isValid_of_of? h

theorem isValid_of_ofTimestamp? {s : List Char} {d : Day} (h : ofTimestamp? s = some d) :
    d.isValid = true := by
  unfold ofTimestamp? at h
  split at h
  · cases h
  · obtain ⟨n, -, h⟩ := Option.bind_eq_some_iff.mp h
    obtain ⟨d', hd, h⟩ := Option.bind_eq_some_iff.mp h
    have hvalid := isValid_of_standard? hd
    split at h
    · exact Option.some.inj h ▸ hvalid
    · split at h
      · exact Option.some.inj h ▸ hvalid
      · cases h

theorem isValid_of_read? {s : String} {d : Day} (h : read? s = some d) : d.isValid = true := by
  unfold read? at h
  split at h
  · cases h
  · dsimp only at h
    split at h
    · exact isValid_of_of? h
    · exact isValid_of_ofTimestamp? h

end FormulaTable.Day
