import FormulaTable.Calendar.TimeStyle
import FormulaTable.Proofs.Calendar.DayText

/-!
# Times of day read and shown

A time shown in any style is read again as that time, without its second where the style shows none:
the half of the day at the end of a text tells the 12 hour clock from the 24 hour clock, and the
colons tell whether there is a second. So each style brings texts to a normal form.
-/

namespace FormulaTable
open Text (isBlank trimList)
open DateStyle (padded isDigit_of_mem_padded ofDigitChars_padded length_padded)
open TimeStyle (halfHour halfName)

namespace Clock

structure IsValid (c : Clock) : Prop where
  hour_lt : c.hour < 24
  minute_lt : c.minute < 60
  second_lt : c.second < 60

variable {s : List Char} {n : Nat}

theorem sixtieth?_lt (h : sixtieth? s = some n) : n < 60 := by
  obtain ⟨m, -, h⟩ := Option.bind_eq_some_iff.mp h
  split at h
  · next hm => exact Option.some.inj h ▸ hm
  · cases h

theorem wholeDayHour?_lt (h : wholeDayHour? s = some n) : n < 24 := by
  obtain ⟨m, -, h⟩ := Option.bind_eq_some_iff.mp h
  split at h
  · obtain rfl := Option.some.inj h
    omega
  · cases h

theorem fromHalf_lt (afternoon : Bool) (hour : Nat) : fromHalf afternoon hour < 24 := by
  unfold fromHalf
  split <;> omega

theorem isValid_of_ofParts? {parts : List (List Char)} {c : Clock} (h : ofParts? parts = some c) :
    c.IsValid := by
  unfold ofParts? at h
  split at h
  · split at h
    · obtain ⟨hour, -, h⟩ := Option.bind_eq_some_iff.mp h
      obtain ⟨minute, hm, h⟩ := Option.bind_eq_some_iff.mp h
      obtain rfl := Option.some.inj h
      exact ⟨fromHalf_lt _ _, sixtieth?_lt hm, Nat.succ_pos 59⟩
    · obtain ⟨hour, hh, h⟩ := Option.bind_eq_some_iff.mp h
      obtain ⟨minute, hm, h⟩ := Option.bind_eq_some_iff.mp h
      obtain rfl := Option.some.inj h
      exact ⟨wholeDayHour?_lt hh, sixtieth?_lt hm, Nat.succ_pos 59⟩
  · split at h
    · obtain ⟨hour, -, h⟩ := Option.bind_eq_some_iff.mp h
      obtain ⟨minute, hm, h⟩ := Option.bind_eq_some_iff.mp h
      obtain ⟨second, hs, h⟩ := Option.bind_eq_some_iff.mp h
      obtain rfl := Option.some.inj h
      exact ⟨fromHalf_lt _ _, sixtieth?_lt hm, sixtieth?_lt hs⟩
    · obtain ⟨hour, hh, h⟩ := Option.bind_eq_some_iff.mp h
      obtain ⟨minute, hm, h⟩ := Option.bind_eq_some_iff.mp h
      obtain ⟨second, hs, h⟩ := Option.bind_eq_some_iff.mp h
      obtain rfl := Option.some.inj h
      exact ⟨wholeDayHour?_lt hh, sixtieth?_lt hm, sixtieth?_lt hs⟩
  · cases h

theorem twoDigits?_of_isDigit (h : ∀ c ∈ s, c.isDigit = true) (hlow : 1 ≤ s.length)
    (hhigh : s.length ≤ 2) : twoDigits? s = some (Nat.ofDigitChars 10 s 0) := by
  match s with
  | [a] =>
    rw [twoDigits?, Formula.digitValue?_of_isDigit (h a (by simp))]
    simp [Nat.ofDigitChars]
  | [a, b] =>
    rw [twoDigits?, Text.asciiDigit?, if_pos (h a (by simp)),
      Formula.digitValue?_of_isDigit (h b (by simp))]
    simp [Nat.ofDigitChars]

theorem twoDigits?_padded {width : Nat} (hlow : 1 ≤ width) (hhigh : width ≤ 2) (h : n < 100) :
    twoDigits? (padded width n).toList = some n := by
  obtain ⟨hmin, hmax⟩ := length_padded hlow hhigh h
  rw [twoDigits?_of_isDigit isDigit_of_mem_padded (hlow.trans hmin) hmax, ofDigitChars_padded]

theorem all_isDigit_padded (width n : Nat) : (padded width n).toList.all Char.isDigit = true :=
  List.all_eq_true.mpr isDigit_of_mem_padded

theorem sixtieth?_padded (h : n < 60) : sixtieth? (padded 2 n).toList = some n := by
  have hread : twoDigits? (padded 2 n).toList = some n :=
    twoDigits?_padded (by decide) le_rfl (by omega)
  simp [sixtieth?, hread, h]

theorem wholeDayHour?_padded (h : n < 24) : wholeDayHour? (padded 2 n).toList = some n := by
  have hread : twoDigits? (padded 2 n).toList = some n :=
    twoDigits?_padded (by decide) le_rfl (by omega)
  have hhour : n < 20 ∨ n < 24 ∧ (padded 2 n).toList.all Char.isDigit = true :=
    .inr ⟨h, all_isDigit_padded 2 n⟩
  rw [wholeDayHour?, hread, Option.bind_eq_bind, Option.bind_some, if_pos hhour]

theorem halfDayHour?_padded (hlow : 1 ≤ n) (hhigh : n ≤ 12) :
    halfDayHour? (padded 1 n).toList = some n := by
  have hread : twoDigits? (padded 1 n).toList = some n :=
    twoDigits?_padded le_rfl (by decide) (by omega)
  rw [halfDayHour?, if_pos (all_isDigit_padded 1 n), hread, Option.bind_eq_bind, Option.bind_some,
    if_pos ⟨hlow, hhigh⟩]

theorem colonParts_of_notMem (h : ':' ∉ s) : colonParts s = [s] := by
  induction s with
  | nil => rfl
  | cons c s ih =>
    rw [List.mem_cons, not_or] at h
    rw [colonParts, if_neg (Ne.symm h.1), ih h.2]

theorem colonParts_append (h : ':' ∉ s) (rest : List Char) :
    colonParts (s ++ ':' :: rest) = s :: colonParts rest := by
  induction s with
  | nil => rw [List.nil_append, colonParts, if_pos rfl]
  | cons c s ih =>
    rw [List.mem_cons, not_or] at h
    rw [List.cons_append, colonParts, if_neg (Ne.symm h.1), ih h.2]

theorem half?_of_isDigit (h : ∀ c ∈ s, c.isDigit = true) : half? s = none := by
  unfold half?
  split
  · next m k rest hs =>
    have hm : m.isDigit = true := h m (List.mem_reverse.mp (by rw [hs]; exact List.mem_cons_self))
    have hne : m ≠ 'm' ∧ m ≠ 'M' := by
      constructor <;> (rintro rfl; exact absurd hm (by decide))
    rw [if_pos hne]
  · rfl

theorem half?_append (h : ∀ c ∈ s, c.isDigit = true) (c : Clock) :
    half? (s ++ (halfName c).toList) = some (decide (12 ≤ c.hour), s) := by
  have hkept : s.reverse.dropWhile isBlank = s.reverse := by
    cases hs : s.reverse with
    | nil => rfl
    | cons d rest =>
      have hd : d ∈ s := List.mem_reverse.mp (by rw [hs]; exact List.mem_cons_self)
      exact List.dropWhile_cons_of_neg (by simp [Text.isBlank_of_isDigit (h d hd)])
  have hblank : isBlank ' ' = true := by decide
  unfold halfName
  split
  · next hmorning =>
    simp [half?, hkept, hblank, Nat.not_le.mpr hmorning]
  · next hafternoon =>
    simp [half?, hkept, hblank, Nat.not_lt.mp hafternoon]

theorem exists_halfDayHour? {c : Clock} (h : c.hour < 24) :
    ∃ hour, halfDayHour? (halfHour c).toList = some hour ∧
      fromHalf (decide (12 ≤ c.hour)) hour = c.hour := by
  refine ⟨_, halfDayHour?_padded ?_ ?_, ?_⟩
  · split <;> omega
  · split <;> omega
  · rw [fromHalf]
    simp only [decide_eq_true_eq]
    split <;> split <;> omega

end Clock

namespace TimeStyle
open Clock (colonParts half? ofParts? read?)

def showsHalf : TimeStyle → Bool
  | hourMinute | hourMinuteSecond => false
  | halfDay | halfDaySecond | englishHalfDay | englishHalfDaySecond => true

def showsSecond : TimeStyle → Bool
  | hourMinute | halfDay | englishHalfDay => false
  | hourMinuteSecond | halfDaySecond | englishHalfDaySecond => true

variable (style : TimeStyle) (c : Clock)

def hourText : String := if style.showsHalf then halfHour c else padded 2 c.hour

def secondText : String := if style.showsSecond then ":" ++ padded 2 c.second else ""

def halfText : String := if style.showsHalf then halfName c else ""

def shown : Clock := if style.showsSecond then c else { c with second := 0 }

theorem render_eq :
    style.render c = style.hourText c ++ ":" ++ padded 2 c.minute ++ style.secondText c ++
      style.halfText c := by
  cases style <;>
    simp [render, hourText, secondText, halfText, showsHalf, showsSecond, String.append_assoc]

theorem render_shown : style.render (style.shown c) = style.render c := by
  cases style <;> rfl

theorem isDigit_of_mem_hourText : ∀ d ∈ (style.hourText c).toList, d.isDigit = true := by
  unfold hourText
  split
  · exact isDigit_of_mem_padded
  · exact isDigit_of_mem_padded

theorem isBlank_of_mem_front {d : Char}
    (h : d ∈ (style.hourText c ++ ":" ++ padded 2 c.minute ++ style.secondText c).toList) :
    isBlank d = false := by
  have hcolon : isBlank ':' = false := by decide
  have hsecond : ∀ d ∈ (style.secondText c).toList, isBlank d = false := by
    unfold secondText
    split
    · rw [String.toList_append]
      exact List.forall_mem_cons.mpr
        ⟨hcolon, fun d hd => Text.isBlank_of_isDigit (isDigit_of_mem_padded d hd)⟩
    · simp
  simp only [String.toList_append, List.mem_append] at h
  rcases h with ((h | h) | h) | h
  · exact Text.isBlank_of_isDigit (style.isDigit_of_mem_hourText c d h)
  · rwa [List.mem_singleton.mp h]
  · exact Text.isBlank_of_isDigit (isDigit_of_mem_padded d h)
  · exact hsecond d h

theorem trimList_render : trimList (style.render c).toList = (style.render c).toList := by
  have hfront := @isBlank_of_mem_front style c
  obtain ⟨d, front, hd⟩ : ∃ d front,
      (style.hourText c ++ ":" ++ padded 2 c.minute ++ style.secondText c).toList = d :: front :=
    List.exists_cons_of_ne_nil (by simp)
  rw [render_eq, String.toList_append]
  rw [hd] at hfront ⊢
  unfold halfText
  split
  · have hletter : isBlank 'M' = false := by decide
    obtain ⟨k, hhalf⟩ : ∃ k, (halfName c).toList = [' ', k, 'M'] := by
      unfold halfName
      split
      · exact ⟨'A', rfl⟩
      · exact ⟨'P', rfl⟩
    rw [hhalf]
    -- The blank before the half of the day is at neither end of the text.
    refine Text.trimBy_of_ends (fun e he => ?_) fun e he => ?_
    · obtain rfl := Option.some.inj he
      exact hfront List.mem_cons_self
    · rw [List.getLast?_append] at he
      obtain rfl := Option.some.inj he
      exact hletter
  · rw [String.toList_empty, List.append_nil]
    exact Text.trimBy_of_forall_not @hfront

theorem colonParts_render :
    colonParts (style.render c).toList =
      if style.showsSecond then
        [(style.hourText c).toList, (padded 2 c.minute).toList,
          (padded 2 c.second).toList ++ (style.halfText c).toList]
      else
        [(style.hourText c).toList, (padded 2 c.minute).toList ++ (style.halfText c).toList] := by
  have hdigits {s : List Char} (h : ∀ d ∈ s, d.isDigit = true) : ':' ∉ s :=
    fun hmem => absurd (h ':' hmem) (by decide)
  have hhour := hdigits (style.isDigit_of_mem_hourText c)
  have hpadded (n : Nat) : ':' ∉ (padded 2 n).toList := hdigits isDigit_of_mem_padded
  have hhalf : ':' ∉ (style.halfText c).toList := by
    unfold halfText halfName
    split
    · split <;> decide
    · decide
  have hlast (n : Nat) : ':' ∉ (padded 2 n).toList ++ (style.halfText c).toList := by
    rw [List.mem_append, not_or]
    exact ⟨hpadded n, hhalf⟩
  rw [render_eq]
  cases hsecond : style.showsSecond with
  | false =>
    simp [secondText, hsecond, Clock.colonParts_append hhour, Clock.colonParts_of_notMem (hlast _)]
  | true =>
    simp [secondText, hsecond, Clock.colonParts_append hhour, Clock.colonParts_append (hpadded _),
      Clock.colonParts_of_notMem (hlast _)]

variable {c}

theorem read?_render (h : c.IsValid) : read? (style.render c) = some (style.shown c) := by
  obtain ⟨hour, hhour, hfrom⟩ := Clock.exists_halfDayHour? h.hour_lt
  have hwhole := Clock.wholeDayHour?_padded h.hour_lt
  have hminute := Clock.sixtieth?_padded h.minute_lt
  have hsecond := Clock.sixtieth?_padded h.second_lt
  rw [read?, trimList_render, colonParts_render, shown]
  cases hshows : style.showsHalf with
  | false =>
    have hhalf (n : Nat) : half? (padded 2 n).toList = none :=
      Clock.half?_of_isDigit isDigit_of_mem_padded
    split <;>
      simp [ofParts?, hourText, halfText, hshows, hhalf, hwhole, hminute, hsecond]
  | true =>
    have hhalf (n : Nat) := Clock.half?_append (@isDigit_of_mem_padded 2 n) c
    split <;>
      simp [ofParts?, hourText, halfText, hshows, hhalf, hhour, hfrom, hminute, hsecond]

def restating : Text.Restating Clock where
  read? := read?
  write := style.render
  shown := style.shown
  read?_trim s := by rw [read?, Text.trimList_trim, read?]
  read?_write h := style.read?_render (Clock.isValid_of_ofParts? h)
  write_shown := style.render_shown

@[simp] theorem restating_read? : style.restating.read? = read? := rfl

@[simp] theorem restating_shown : style.restating.shown = style.shown := rfl

theorem showText_eq_restate (s : String) : style.showText s = style.restating.restate s := by
  cases h : read? s with
  | none => rw [showText, h, style.restating.restate_of_none h]
  | some c => rw [showText, h, style.restating.restate_of_some h]; rfl

/-- In any style, however its name is spelled, every time of day is written so that it is read
again, with its second if the style shows one and without it else. A text that reads as a time is
shown as that time; a text that does not is trimmed and still does not. To show a text twice is to
show it once: two texts of times are shown alike just when the style shows as much of the one as of
the other. -/
theorem showText_normal (name : Option String) (s : String) :
    let style := ofText name
    (∀ c : Clock, c.IsValid → read? (style.render c) = some (style.shown c)) ∧
      (∀ c, read? s = some c → c.IsValid ∧ read? (style.showText s) = some (style.shown c)) ∧
      (read? s = none → style.showText s = Text.trim s ∧ read? (style.showText s) = none) ∧
      style.showText (style.showText s) = style.showText s ∧
      ∀ t c c', read? s = some c → read? t = some c' →
        (style.showText s = style.showText t ↔ style.shown c = style.shown c') := by
  intro style
  simp only [showText_eq_restate]
  have hread := style.restating.read?_restate s
  rw [restating_read?, restating_shown] at hread
  refine ⟨fun c h => style.read?_render h, fun c h => ⟨Clock.isValid_of_ofParts? h, ?_⟩,
    fun h => ⟨style.restating.restate_of_none h, ?_⟩, style.restating.restate_restate s,
    fun t c c' h h' => style.restating.restate_eq_iff h h'⟩
  · rw [hread, h, Option.map_some]
  · rw [hread, h, Option.map_none]

theorem showText_normal_midnight :
    ofText (some " EN-h mm-A\n") = englishHalfDay ∧ ofText (some "hh mm SS") = hourMinuteSecond ∧
      read? (englishHalfDay.render ⟨12, 0, 59⟩) = some ⟨12, 0, 0⟩ ∧
      read? (englishHalfDay.showText "\u3000٠:0٥:30") = some ⟨0, 5, 0⟩ ∧
      read? (hourMinuteSecond.showText "\u3000٠:0٥:30") = some ⟨0, 5, 30⟩ ∧
      englishHalfDay.showText "\u3000٠:0٥:30" = englishHalfDay.showText "12:05 am" ∧
      hourMinuteSecond.showText "\u3000٠:0٥:30" ≠ hourMinuteSecond.showText "12:05 am" ∧
      read? (englishHalfDay.showText "24:00 ") = none := by
  have hdial : ofText (some " EN-h mm-A\n") = englishHalfDay := by decide +kernel
  have hday : ofText (some "hh mm SS") = hourMinuteSecond := by decide +kernel
  have hread : read? "\u3000٠:0٥:30" = some ⟨0, 5, 30⟩ := by decide +kernel
  have hplain : read? "12:05 am" = some ⟨0, 5, 0⟩ := by decide +kernel
  have hnone : read? "24:00 " = none := by decide +kernel
  have hnoon : Clock.IsValid ⟨12, 0, 59⟩ := ⟨by decide, by decide, by decide⟩
  obtain ⟨hwritten, hagain, -, -, halike⟩ := showText_normal (some " EN-h mm-A\n") "\u3000٠:0٥:30"
  obtain ⟨-, hagain', -, -, halike'⟩ := showText_normal (some "hh mm SS") "\u3000٠:0٥:30"
  obtain ⟨-, -, htrimmed, -, -⟩ := showText_normal (some " EN-h mm-A\n") "24:00 "
  rw [hdial] at hwritten hagain halike htrimmed
  rw [hday] at hagain' halike'
  have hequal : shown englishHalfDay ⟨0, 5, 30⟩ = shown englishHalfDay ⟨0, 5, 0⟩ := rfl
  have hapart : shown hourMinuteSecond ⟨0, 5, 30⟩ ≠ shown hourMinuteSecond ⟨0, 5, 0⟩ := by decide
  exact ⟨hdial, hday, hwritten _ hnoon, (hagain _ hread).2, (hagain' _ hread).2,
    (halike _ _ _ hread hplain).mpr hequal, mt (halike' _ _ _ hread hplain).mp hapart,
    (htrimmed hnone).2⟩

end TimeStyle
end FormulaTable
