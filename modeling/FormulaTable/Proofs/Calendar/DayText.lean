import FormulaTable.Calendar.DateStyle
import FormulaTable.Proofs.Calendar.Gregorian
import FormulaTable.Proofs.Text.Digit
import FormulaTable.Proofs.Text.Restating

/-!
# Days read and shown

Year, month and day in digits of any script, with dashes, points or slashes between them, are read
as that day if the calendar has it, and as none otherwise, whatever a timestamp would make of the
text. The text with dashes and zeros in front is of that kind, so that to show days in this way
brings texts to a normal form.
-/

namespace FormulaTable
open Text (Spells digitValue? isBlank trimList)

namespace DateStyle
variable {width n : Nat}

theorem toList_padded (width n : Nat) :
    (padded width n).toList = Decimal.padLeft width '0' (Decimal.numeral n) :=
  String.toList_ofList

theorem isDigit_of_mem_padded : ∀ c ∈ (padded width n).toList, c.isDigit = true := by
  rw [toList_padded]
  exact Decimal.isDigit_of_mem_padLeft Decimal.isDigit_of_mem_numeral

theorem ofDigitChars_padded (width n : Nat) :
    Nat.ofDigitChars 10 (padded width n).toList 0 = n := by
  rw [toList_padded, Decimal.ofDigitChars_padLeft, Decimal.ofDigitChars_numeral]

theorem length_padded {most : Nat} (hw : 1 ≤ width) (hm : width ≤ most) (h : n < 10 ^ most) :
    width ≤ (padded width n).toList.length ∧ (padded width n).toList.length ≤ most := by
  have hnumeral : (Decimal.numeral n).length ≤ most :=
    (Nat.length_toDigits_le_iff (by decide) (by omega)).mpr h
  rw [toList_padded, Decimal.padLeft, List.length_append, List.length_replicate]
  omega

theorem spells_padded (width n : Nat) : Spells (padded width n).toList n := by
  have h := Text.spells_of_isDigit (@isDigit_of_mem_padded width n)
  rwa [ofDigitChars_padded] at h

end DateStyle

namespace Day
open DateStyle (padded)

theorem digits?_run {digit? : Char → Option Nat} {least most : Nat} {ds rest : List Char}
    {vs : List Nat} (hvs : ds.map digit? = vs.map some) (hl : least ≤ ds.length)
    (hm : ds.length ≤ most) (hrest : ds.length = most ∨ ∀ c ∈ rest.head?, digit? c = none) :
    digits? digit? least most (ds ++ rest) = some (Decimal.ofDigits vs, rest) := by
  have hlength : (vs.map some).length = ds.length := by rw [← hvs, List.length_map]
  have hend : ((rest.take (most - ds.length)).map digit?).takeWhile Option.isSome = [] := by
    rcases hrest with hfull | hother
    · rw [hfull, Nat.sub_self, List.take_zero, List.map_nil, List.takeWhile_nil]
    · cases rest with
      | nil => rw [List.take_nil, List.map_nil, List.takeWhile_nil]
      | cons c rest =>
        cases most - ds.length with
        | zero => rfl
        | succ k =>
          rw [List.take_succ_cons, List.map_cons, hother c rfl]
          rfl
  have hrun : (((ds ++ rest).take most).map digit?).takeWhile Option.isSome = vs.map some := by
    rw [List.take_append, List.take_of_length_le hm, List.map_append, hvs,
      List.takeWhile_append_of_pos (by simp), hend, List.append_nil]
  have hvalues : (vs.map some).filterMap id = vs := by simp
  simp only [digits?]
  rw [hrun, hlength, if_neg (Nat.not_lt.mpr hl), hvalues, List.drop_left]
  rfl

theorem digits?_append {least most n : Nat} {ds rest : List Char} (h : Spells ds n)
    (hl : least ≤ ds.length) (hm : ds.length ≤ most)
    (hrest : ds.length = most ∨ ∀ c ∈ rest.head?, digitValue? c = none) :
    digits? digitValue? least most (ds ++ rest) = some (n, rest) := by
  obtain ⟨vs, hvs, rfl⟩ := h
  exact digits?_run hvs hl hm hrest

/-- `Dashed cs year month day`: four digits, one or two and one or two, of any script, with a dash,
a point or a slash between them. -/
inductive Dashed : List Char → Nat → Nat → Nat → Prop
  | intro {ys ms ds : List Char} {c c' : Char} {year month day : Nat} (hy : Spells ys year)
      (hys : ys.length = 4) (hc : c ∈ ['-', '.', '/']) (hm : Spells ms month)
      (hms : ms.length ∈ [1, 2]) (hc' : c' ∈ ['-', '.', '/']) (hd : Spells ds day)
      (hds : ds.length ∈ [1, 2]) :
      Dashed (ys ++ c :: (ms ++ c' :: ds)) year month day

theorem dash_of_mem {c : Char} (h : c ∈ ['-', '.', '/']) : dash c = '-' := by
  simp only [List.mem_cons, List.not_mem_nil, or_false] at h
  rcases h with rfl | rfl | rfl <;> rfl

theorem map_dash {ds : List Char} {n : Nat} (h : Spells ds n) : ds.map dash = ds := by
  have hkept : ∀ c ∈ ds, dash c = c := by
    intro c hc
    have hpoint : c ≠ '.' := h.mem_ne (by decide) c hc
    have hslash : c ≠ '/' := h.mem_ne (by decide) c hc
    rw [dash, if_neg (not_or.mpr ⟨hpoint, hslash⟩)]
  rw [List.map_congr_left hkept, List.map_id']

theorem dashedParts?_of_dashed {cs : List Char} {year month day : Nat}
    (h : Dashed cs year month day) : dashedParts? (cs.map dash) = some (year, month, day) := by
  cases h with
  | @intro ys ms ds c c' _ _ _ hy hys hc hm hms hc' hd hds =>
    simp only [List.mem_cons, List.not_mem_nil, or_false] at hms hds
    have hdash (rest : List Char) : ∀ c ∈ ('-' :: rest).head?, digitValue? c = none := by
      rintro _ ⟨⟩
      decide
    have hyear (rest : List Char) : digits? digitValue? 4 4 (ys ++ rest) = some (year, rest) :=
      digits?_append hy hys.ge hys.le (.inl hys)
    have hmonth (rest : List Char) :
        digits? digitValue? 1 2 (ms ++ '-' :: rest) = some (month, '-' :: rest) :=
      digits?_append hm (by omega) (by omega) (.inr (hdash rest))
    have hday : digits? digitValue? 1 2 (ds ++ []) = some (day, []) :=
      digits?_append hd (by omega) (by omega) (.inr (by simp))
    rw [List.append_nil] at hday
    rw [List.map_append, map_dash hy, List.map_cons, dash_of_mem hc, List.map_append, map_dash hm,
      List.map_cons, dash_of_mem hc', map_dash hd]
    simp [dashedParts?, hyear, hmonth, hday, after?]

theorem Dashed.ne_nil {cs : List Char} {year month day : Nat} (h : Dashed cs year month day) :
    cs ≠ [] := by
  cases h
  simp

theorem Dashed.year_le {cs : List Char} {year month day : Nat} (h : Dashed cs year month day) :
    year ≤ 9999 := by
  cases h with
  | intro hy hys =>
    have hlt := hy.lt
    rw [hys] at hlt
    omega

theorem read?_eq_of? {s : String} {year month day : Nat}
    (h : Dashed (trimList s.toList) year month day) : read? s = of? year month day := by
  unfold read?
  split
  · next hnil => exact absurd hnil h.ne_nil
  · dsimp only
    rw [dashedParts?_of_dashed h]
    rfl

theorem read?_of_dashed {s : String} {year month day : Nat}
    (h : Dashed (trimList s.toList) year month day) :
    (read? s = some ⟨year, month, day⟩ ↔ Gregorian year month day) ∧
      (read? s = none ↔ ¬ Gregorian year month day) := by
  rw [read?_eq_of? h]
  exact of?_iff h.year_le

theorem month_le_of_isValid {d : Day} (h : d.isValid = true) :
    1 ≤ d.month ∧ d.month ≤ 12 ∧ d.day ≤ 31 := by
  obtain ⟨⟨-, -, days, hhas, hday⟩, -⟩ := isValid_iff.mp h
  obtain ⟨hlow, hhigh, hdays⟩ := hhas.month_le
  exact ⟨hlow, hhigh, hday.trans hdays⟩

end Day

namespace DateStyle
open Day (Dashed)

theorem toList_render_iso (d : Day) :
    (iso.render d).toList =
      (padded 4 d.year).toList ++
        '-' :: ((padded 2 d.month).toList ++ '-' :: (padded 2 d.day).toList) := by
  simp [render]

theorem dashed_iso {d : Day} (h : d.isValid = true) :
    Dashed (iso.render d).toList d.year d.month d.day := by
  obtain ⟨-, hyear⟩ := Day.isValid_iff.mp h
  obtain ⟨-, hmonth, hday⟩ := Day.month_le_of_isValid h
  obtain ⟨hyl, hyl'⟩ :=
    @length_padded 4 d.year 4 (by decide) le_rfl (by omega)
  obtain ⟨hml, hml'⟩ := @length_padded 2 d.month 2 (by decide) le_rfl (by omega)
  obtain ⟨hdl, hdl'⟩ := @length_padded 2 d.day 2 (by decide) le_rfl (by omega)
  have htwo {ds : List Char} (hle : ds.length ≤ 2) (hge : 2 ≤ ds.length) : ds.length ∈ [1, 2] := by
    simp only [List.mem_cons, List.not_mem_nil, or_false]
    omega
  rw [toList_render_iso]
  exact .intro (spells_padded _ _) (by omega) (by decide) (spells_padded _ _) (htwo hml' hml)
    (by decide) (spells_padded _ _) (htwo hdl' hdl)

theorem trimList_iso (d : Day) : trimList (iso.render d).toList = (iso.render d).toList := by
  refine Text.trimBy_of_forall_not fun c hc => ?_
  have hdash : isBlank '-' = false := by decide
  rw [toList_render_iso] at hc
  simp only [List.mem_append, List.mem_cons] at hc
  rcases hc with hc | rfl | hc | rfl | hc
  · exact Text.isBlank_of_isDigit (isDigit_of_mem_padded c hc)
  · exact hdash
  · exact Text.isBlank_of_isDigit (isDigit_of_mem_padded c hc)
  · exact hdash
  · exact Text.isBlank_of_isDigit (isDigit_of_mem_padded c hc)

theorem read?_iso {d : Day} (h : d.isValid = true) : Day.read? (iso.render d) = some d := by
  have hdashed := dashed_iso h
  rw [← trimList_iso] at hdashed
  exact (Day.read?_of_dashed hdashed).1.mpr (Day.isValid_iff.mp h).1

def isoRestating : Text.Restating Day where
  read? := Day.read?
  write := iso.render
  shown := id
  read?_trim s := by rw [Day.read?, Text.trimList_trim, Day.read?]
  read?_write h := read?_iso (Day.isValid_of_read? h)
  write_shown _ := rfl

theorem showText_iso (s : String) : iso.showText s = isoRestating.restate s := by
  cases h : Day.read? s with
  | none => rw [showText, h, isoRestating.restate_of_none h]
  | some d => rw [showText, h, isoRestating.restate_of_some h]; rfl

/-- Shown by year, month and day, a text that reads as a day reads as that day again, a text that
does not is trimmed and does not either, and to show it twice is to show it once: two texts of days
are shown alike just when they are of one day. Year, month and day in digits of any script read as
that day if the calendar has it, and else as none. -/
theorem showText_iso_normal (s : String) :
    (∀ d, Day.read? s = some d → Day.read? (iso.showText s) = some d) ∧
      (Day.read? s = none → iso.showText s = Text.trim s ∧ Day.read? (iso.showText s) = none) ∧
      iso.showText (iso.showText s) = iso.showText s ∧
      (∀ t d d', Day.read? s = some d → Day.read? t = some d' →
        (iso.showText s = iso.showText t ↔ d = d')) ∧
      ∀ year month day, Dashed (trimList s.toList) year month day →
        (Day.read? s = some ⟨year, month, day⟩ ↔ Day.Gregorian year month day) ∧
          (Day.read? s = none ↔ ¬ Day.Gregorian year month day) := by
  simp only [showText_iso]
  have hread : Day.read? (isoRestating.restate s) = (Day.read? s).map id :=
    isoRestating.read?_restate s
  refine ⟨fun d h => ?_, fun h => ⟨isoRestating.restate_of_none h, ?_⟩,
    isoRestating.restate_restate s, fun t d d' h h' => isoRestating.restate_eq_iff h h',
    fun year month day h => Day.read?_of_dashed h⟩
  · rw [hread, h, Option.map_some, id]
  · rw [hread, h, Option.map_none]

theorem showText_iso_normal_leap :
    Day.read? (iso.showText "\u3000٢٠٢٤/2.29") = some ⟨2024, 2, 29⟩ ∧
      iso.showText "\u3000٢٠٢٤/2.29" = iso.showText "20240229" ∧
      Day.Gregorian 2024 2 29 ∧
      iso.showText "1900/02/29 " = "1900/02/29" ∧
      Day.read? (iso.showText "1900/02/29 ") = none ∧ ¬ Day.Gregorian 1900 2 29 := by
  have hread : Day.read? "\u3000٢٠٢٤/2.29" = some ⟨2024, 2, 29⟩ := by decide +kernel
  have hplain : Day.read? "20240229" = some ⟨2024, 2, 29⟩ := by decide +kernel
  have hnone : Day.read? "1900/02/29 " = none := by decide +kernel
  have hdashed : Dashed (trimList "\u3000٢٠٢٤/2.29".toList) 2024 2 29 := by
    have htrim : trimList "\u3000٢٠٢٤/2.29".toList =
        ['٢', '٠', '٢', '٤'] ++ '/' :: (['2'] ++ '.' :: ['2', '9']) := by decide +kernel
    rw [htrim]
    exact .intro ⟨[2, 0, 2, 4], by decide, rfl⟩ rfl (by decide) ⟨[2], by decide, rfl⟩ (by decide)
      (by decide) ⟨[2, 9], by decide, rfl⟩ (by decide)
  have hdashed' : Dashed (trimList "1900/02/29 ".toList) 1900 2 29 := by
    have htrim : trimList "1900/02/29 ".toList =
        ['1', '9', '0', '0'] ++ '/' :: (['0', '2'] ++ '/' :: ['2', '9']) := by decide +kernel
    rw [htrim]
    exact .intro ⟨[1, 9, 0, 0], by decide, rfl⟩ rfl (by decide) ⟨[0, 2], by decide, rfl⟩ (by decide)
      (by decide) ⟨[2, 9], by decide, rfl⟩ (by decide)
  obtain ⟨hagain, -, -, halike, hcalendar⟩ := showText_iso_normal "\u3000٢٠٢٤/2.29"
  obtain ⟨-, htrimmed, -, -, hcalendar'⟩ := showText_iso_normal "1900/02/29 "
  obtain ⟨hshown, hagain'⟩ := htrimmed hnone
  have htrim : Text.trim "1900/02/29 " = "1900/02/29" := by decide +kernel
  exact ⟨hagain _ hread, (halike _ _ _ hread hplain).mpr rfl, (hcalendar _ _ _ hdashed).1.mp hread,
    hshown.trans htrim, hagain', (hcalendar' _ _ _ hdashed').2.mp hnone⟩

end DateStyle
end FormulaTable
