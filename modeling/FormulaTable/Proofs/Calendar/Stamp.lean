import FormulaTable.Proofs.Calendar.DayText

/-!
# Days before a time of day

Year, month and day with dashes and then a letter T are read as that day if the calendar has it,
whatever follows the letter. A reader of whole timestamps would look at the time of day as well: it
takes every time that the standard knows, with an offset or without, and refuses the day where the
text behind the letter is none.
-/

namespace FormulaTable
open Text (Spells digitValue? asciiDigit? isBlank trimList trimRightBy)
open DateStyle (padded isDigit_of_mem_padded)

namespace Day

def twoDigits (n : Nat) : List Char := (padded 2 n).toList

inductive Fraction : List Char → Prop
  | none : Fraction []
  | places {mark : Char} {ds : List Char} (hmark : mark = '.' ∨ mark = ',') (hne : ds ≠ [])
      (hds : ∀ c ∈ ds, c.isDigit = true) : Fraction (mark :: ds)

/-- `Face colon cs parts`: the hour, perhaps the minute and perhaps the second, each in two digits,
with `colon` between them, and a fraction of the last of them. -/
inductive Face (colon : List Char) : List Char → List Nat → Prop
  | last {n : Nat} {fraction : List Char} (hn : n < 100) (h : Fraction fraction) :
      Face colon (twoDigits n ++ fraction) [n]
  | more {n : Nat} {cs : List Char} {parts : List Nat} (hn : n < 100) (h : Face colon cs parts) :
      Face colon (twoDigits n ++ (colon ++ cs)) (n :: parts)

structure OnDial (parts : List Nat) : Prop where
  length_le : parts.length ≤ 3
  hour_lt : ∀ n ∈ parts.head?, n < 24
  sixtieth_lt : ∀ n ∈ parts.tail, n < 60

inductive IsoTime : List Char → Prop
  | plain {colon cs : List Char} {parts : List Nat} (hcolon : colon = [':'] ∨ colon = [])
      (h : Face colon cs parts) (hdial : OnDial parts) : IsoTime cs
  | zulu {colon cs : List Char} {parts : List Nat} (hcolon : colon = [':'] ∨ colon = [])
      (h : Face colon cs parts) (hdial : OnDial parts) : IsoTime (cs ++ ['Z'])
  | offset {colon cs colon' cs' : List Char} {parts parts' : List Nat} {sign : Char}
      (hcolon : colon = [':'] ∨ colon = []) (h : Face colon cs parts) (hdial : OnDial parts)
      (hsign : sign = '+' ∨ sign = '-') (hcolon' : colon' = [':'] ∨ colon' = [])
      (h' : Face colon' cs' parts') (hdial' : OnDial parts') (hlength : parts'.length ≤ 2) :
      IsoTime (cs ++ sign :: cs')

theorem map_asciiDigit? {ds : List Char} (h : ∀ c ∈ ds, c.isDigit = true) :
    ds.map asciiDigit? = (ds.map (·.toNat - 48)).map some := by
  rw [List.map_map]
  exact List.map_congr_left fun c hc => by simp [asciiDigit?, h c hc]

theorem isDigit_of_mem_twoDigits {n : Nat} : ∀ c ∈ twoDigits n, c.isDigit = true :=
  isDigit_of_mem_padded

theorem length_twoDigits {n : Nat} (h : n < 100) : (twoDigits n).length = 2 := by
  obtain ⟨hlow, hhigh⟩ := @DateStyle.length_padded 2 n 2 (by decide) le_rfl (by omega)
  exact Nat.le_antisymm hhigh hlow

theorem digits?_twoDigits {n : Nat} (h : n < 100) (rest : List Char) :
    digits? asciiDigit? 2 2 (twoDigits n ++ rest) = some (n, rest) := by
  have hlength := length_twoDigits h
  have hvalue : Nat.ofDigitChars 10 (twoDigits n) 0 = n  :=
    DateStyle.ofDigitChars_padded 2 n
  rw [digits?_run (map_asciiDigit? isDigit_of_mem_twoDigits) hlength.ge hlength.le (.inl hlength),
    Decimal.ofDigits_map, hvalue]

theorem exists_cons_twoDigits {n : Nat} (h : n < 100) :
    ∃ c c', twoDigits n = [c, c'] ∧ c.isDigit = true := by
  obtain ⟨c, c', hcs⟩ := List.length_eq_two.mp (length_twoDigits h)
  exact ⟨c, c', hcs, isDigit_of_mem_twoDigits c (hcs ▸ List.mem_cons_self)⟩

theorem secondParts?_of_isDigit {ds : List Char} (h : ∀ c ∈ ds, c.isDigit = true) :
    secondParts? ds = some true := by
  have hall : ∀ c ∈ ds, (asciiDigit? c).isSome = true := fun c hc => by
    simp [asciiDigit?, h c hc]
  have htake : (ds.take 6).all (fun c => (asciiDigit? c).isSome) = true :=
    List.all_eq_true.mpr fun c hc => hall c (List.mem_of_mem_take hc)
  rw [secondParts?, if_pos htake, List.all_eq_true.mpr hall]

theorem clockParts?_last {n count : Nat} {colons : Option Bool} {fraction : List Char}
    (hn : n < 100) (h : Fraction fraction) :
    clockParts? (count + 1) colons (twoDigits n ++ fraction) = some ([n], true) := by
  rw [clockParts?, digits?_twoDigits hn]
  cases h with
  | none => rfl
  | @places mark ds hmark hne hds =>
    obtain ⟨d, ds, rfl⟩ := List.exists_cons_of_ne_nil hne
    have hcolon : mark ≠ ':' := by rcases hmark with rfl | rfl <;> decide
    simp [hcolon, hmark, secondParts?_of_isDigit hds]

theorem Face.exists_cons {colon cs : List Char} {parts : List Nat} (h : Face colon cs parts) :
    ∃ c c' rest, cs = c :: c' :: rest ∧ c.isDigit = true := by
  cases h with
  | last hn _ | more hn _ =>
    obtain ⟨c, c', htwo, hc⟩ := exists_cons_twoDigits hn
    exact ⟨c, c', _, by rw [htwo]; rfl, hc⟩

theorem clockParts?_face {colon cs : List Char} {parts : List Nat} (h : Face colon cs parts)
    (hcolon : colon = [':'] ∨ colon = []) {count : Nat} (hlength : parts.length ≤ count)
    {colons : Option Bool} (hcolons : colons = none ∨ colons = some !colon.isEmpty) :
    clockParts? count colons cs = some (parts, true) := by
  induction h generalizing count colons with
  | last hn hfraction =>
    obtain ⟨count, rfl⟩ := Nat.exists_eq_add_of_le' hlength
    exact clockParts?_last hn hfraction
  | @more n cs parts hn h ih =>
    rw [List.length_cons] at hlength
    obtain ⟨count, rfl⟩ := Nat.exists_eq_add_of_le' (Nat.le_of_add_left_le hlength)
    have hrest := ih (Nat.le_of_add_le_add_right hlength) (.inr rfl)
    obtain ⟨c, c', rest, rfl, hc⟩ := h.exists_cons
    rw [clockParts?, digits?_twoDigits hn]
    rcases hcolon with rfl | rfl
    · have hshown : colons.getD true = true := by rcases hcolons with rfl | rfl <;> rfl
      rw [List.isEmpty_cons, Bool.not_false] at hrest
      simp [hshown, hrest]
    · have hcolon : c ≠ ':' := Formula.ne_of_isDigit hc (by decide)
      have hpoint : c ≠ '.' := Formula.ne_of_isDigit hc (by decide)
      have hcomma : c ≠ ',' := Formula.ne_of_isDigit hc (by decide)
      have hshown : colons.getD (c == ':') = false := by
        rcases hcolons with rfl | rfl <;> simp [hcolon]
      rw [List.isEmpty_nil, Bool.not_true] at hrest
      simp [hshown, hcolon, hpoint, hcomma, hrest]

theorem Face.mem {colon cs : List Char} {parts : List Nat} (h : Face colon cs parts)
    (hcolon : colon = [':'] ∨ colon = []) :
    ∀ c ∈ cs, c.isDigit = true ∨ c ∈ [':', '.', ','] := by
  induction h with
  | last hn hfraction =>
    intro c hc
    rcases List.mem_append.mp hc with hc | hc
    · exact .inl (isDigit_of_mem_twoDigits c hc)
    · cases hfraction with
      | none => cases hc
      | places hmark hne hds =>
        rcases List.mem_cons.mp hc with rfl | hc
        · exact .inr (List.mem_cons_of_mem _ (by simpa using hmark))
        · exact .inl (hds c hc)
  | more hn h ih =>
    intro c hc
    rcases List.mem_append.mp hc with hc | hc
    · exact .inl (isDigit_of_mem_twoDigits c hc)
    · rcases List.mem_append.mp hc with hc | hc
      · rcases hcolon with rfl | rfl
        · exact .inr (by simp_all)
        · cases hc
      · exact ih c hc

theorem Face.mem_ne {colon cs : List Char} {parts : List Nat} (h : Face colon cs parts)
    (hcolon : colon = [':'] ∨ colon = []) : ∀ c ∈ cs, c ≠ 'Z' ∧ c ≠ '+' ∧ c ≠ '-' := by
  intro c hc
  refine ⟨?_, ?_, ?_⟩ <;>
    (rintro rfl; exact absurd (h.mem hcolon _ hc) (by decide))

theorem flatMap_zeroOffset {cs : List Char} (h : ∀ c ∈ cs, c ≠ 'Z') :
    cs.flatMap zeroOffset = cs := by
  induction cs with
  | nil => rfl
  | cons c cs ih =>
    obtain ⟨hc, hcs⟩ := List.forall_mem_cons.mp h
    rw [List.flatMap_cons, ih hcs, zeroOffset, if_neg hc, List.singleton_append]

theorem OnDial.isTime {parts : List Nat} (h : OnDial parts) : isTime parts = true := by
  obtain ⟨hlength, hhour, hsixtieth⟩ := h
  match parts with
  | [] => rfl
  | [n] => simp_all [Day.isTime, seconds?]
  | [n, m] => simp_all [Day.isTime, seconds?]
  | [n, m, k] => simp_all [Day.isTime, seconds?]

theorem OnDial.isOffset {parts : List Nat} (h : OnDial parts) : isOffset parts = true := by
  have htime := h.isTime
  simp only [Day.isTime, Day.isOffset, Bool.and_eq_true, decide_eq_true_eq] at htime ⊢
  omega

section Clock
variable {cs : List Char} (hcs : ∀ c ∈ cs, c ≠ 'Z' ∧ c ≠ '+' ∧ c ≠ '-')
include hcs

theorem isClock_plain {parts : List Nat} (h : clockParts? 3 none cs = some (parts, true))
    (htime : isTime parts = true) : isClock cs = true := by
  have hsign : ∀ c ∈ cs, (!(c == '+' || c == '-')) = true := fun c hc => by
    simp [(hcs c hc).2]
  have htake := List.takeWhile_eq_self_iff.mpr hsign
  have hdrop := List.dropWhile_eq_nil_iff.mpr hsign
  simp only [isClock]
  rw [htake, hdrop, h]
  simp [htime]

theorem isClock_offset {cs' : List Char} {sign : Char} {parts parts' : List Nat}
    (h : clockParts? 3 none cs = some (parts, true)) (htime : isTime parts = true)
    (hsign : sign = '+' ∨ sign = '-') (h' : clockParts? 3 none cs' = some (parts', true))
    (hoffset : isOffset parts' = true) : isClock (cs ++ sign :: cs') = true := by
  have hother : ∀ c ∈ cs, (!(c == '+' || c == '-')) = true := fun c hc => by
    simp [(hcs c hc).2]
  have htake : (cs ++ sign :: cs').takeWhile (fun c => !(c == '+' || c == '-')) = cs := by
    rw [List.takeWhile_append_of_pos hother]
    rcases hsign with rfl | rfl <;> simp
  have hdrop : (cs ++ sign :: cs').dropWhile (fun c => !(c == '+' || c == '-')) = sign :: cs' := by
    rw [List.dropWhile_append_of_pos hother]
    rcases hsign with rfl | rfl <;> simp
  simp only [isClock]
  rw [htake, hdrop, h]
  simp [h', htime, hoffset]

end Clock

theorem isClock_of_isoTime {cs : List Char} (h : IsoTime cs) :
    isClock (cs.flatMap zeroOffset) = true := by
  have hparts {colon cs : List Char} {parts : List Nat} (hcolon : colon = [':'] ∨ colon = [])
      (h : Face colon cs parts) (hdial : OnDial parts) :
      clockParts? 3 none cs = some (parts, true) :=
    clockParts?_face h hcolon hdial.length_le (.inl rfl)
  cases h with
  | plain hcolon h hdial =>
    have hmem := h.mem_ne hcolon
    rw [flatMap_zeroOffset fun c hc => (hmem c hc).1]
    exact isClock_plain hmem (hparts hcolon h hdial) hdial.isTime
  | @zulu colon cs parts hcolon h hdial =>
    have hmem := h.mem_ne hcolon
    have hzero : clockParts? 3 none "00:00".toList = some ([0, 0], true) := by decide
    have hexpand : (cs ++ ['Z']).flatMap zeroOffset = cs ++ '+' :: "00:00".toList := by
      rw [List.flatMap_append, flatMap_zeroOffset fun c hc => (hmem c hc).1]
      rfl
    rw [hexpand]
    exact isClock_offset hmem (hparts hcolon h hdial) hdial.isTime (.inl rfl) hzero rfl
  | @offset colon cs colon' cs' parts parts' sign hcolon h hdial hsign hcolon' h' hdial' hlength =>
    have hmem := h.mem_ne hcolon
    have hmem' := h'.mem_ne hcolon'
    have hexpand : (cs ++ sign :: cs').flatMap zeroOffset = cs ++ sign :: cs' := by
      refine flatMap_zeroOffset (List.forall_mem_append.mpr ⟨fun c hc => (hmem c hc).1, ?_⟩)
      refine List.forall_mem_cons.mpr ⟨?_, fun c hc => (hmem' c hc).1⟩
      rcases hsign with rfl | rfl <;> decide
    rw [hexpand]
    exact isClock_offset hmem (hparts hcolon h hdial) hdial.isTime hsign
      (hparts hcolon' h' hdial') hdial'.isOffset

/-- `Stamped cs year month day rest`: four digits, two and two, of any script, with dashes between
them, then a letter T and `rest`. -/
inductive Stamped : List Char → Nat → Nat → Nat → List Char → Prop
  | intro {ys ms ds rest : List Char} {t : Char} {year month day : Nat} (hy : Spells ys year)
      (hys : ys.length = 4) (hm : Spells ms month) (hms : ms.length = 2) (hd : Spells ds day)
      (hds : ds.length = 2) (ht : t = 'T' ∨ t = 't') :
      Stamped (ys ++ '-' :: (ms ++ '-' :: (ds ++ t :: rest))) year month day rest

section Stamped
variable {cs rest : List Char} {year month day : Nat}

theorem Stamped.trimList (h : Stamped cs year month day rest) :
    Stamped (trimList cs) year month day (trimRightBy isBlank rest) ∧
      (Text.trimList cs).take 10 = cs.take 10 := by
  cases h with
  | @intro ys ms ds _ t _ _ _ hy hys hm hms hd hds ht =>
    have hsplit (rest : List Char) : ys ++ '-' :: (ms ++ '-' :: (ds ++ t :: rest)) =
        (ys ++ '-' :: (ms ++ '-' :: ds) ++ [t]) ++ rest := by simp
    have hfirst : ∀ c ∈ (ys ++ '-' :: (ms ++ '-' :: ds) ++ [t]).head?, isBlank c = false := by
      obtain ⟨c, ys, rfl⟩ := List.exists_cons_of_length_eq_add_one hys
      rintro _ ⟨⟩
      obtain ⟨v, hv⟩ := hy.exists_digitValue? c List.mem_cons_self
      exact Text.isBlank_of_digitValue? hv
    have hlast : ∀ c ∈ (ys ++ '-' :: (ms ++ '-' :: ds) ++ [t]).getLast?, isBlank c = false := by
      intro c hc
      rw [List.getLast?_concat] at hc
      obtain rfl := Option.some.inj hc
      rcases ht with rfl | rfl <;> decide
    have hlength : (ys ++ '-' :: (ms ++ '-' :: ds)).length = 10 := by simp [hys, hms, hds]
    rw [hsplit, Text.trimList, Text.trimBy_append_of_ends (by simp) hfirst hlast]
    constructor
    · rw [← hsplit]
      exact .intro hy hys hm hms hd hds ht
    · rw [List.append_assoc, List.take_left' hlength, List.append_assoc, List.take_left' hlength]

theorem stampedParts?_of_stamped (h : Stamped cs year month day rest) :
    dashedParts? (cs.map dash) = none ∧ stampedParts? (cs.map dash) = some (year, month, day) := by
  cases h with
  | @intro ys ms ds _ t _ _ _ hy hys hm hms hd hds ht =>
    have hletter : dash t = t ∧ digitValue? t = none := by rcases ht with rfl | rfl <;> decide
    have hyear (rest : List Char) : digits? digitValue? 4 4 (ys ++ rest) = some (year, rest) :=
      digits?_append hy hys.ge hys.le (.inl hys)
    have hmonth {least : Nat} (hleast : least ≤ 2) (rest : List Char) :
        digits? digitValue? least 2 (ms ++ rest) = some (month, rest) :=
      digits?_append hm (hleast.trans hms.ge) hms.le (.inl hms)
    have hday {least : Nat} (hleast : least ≤ 2) (rest : List Char) :
        digits? digitValue? least 2 (ds ++ rest) = some (day, rest) :=
      digits?_append hd (hleast.trans hds.ge) hds.le (.inl hds)
    have hdash : dash '-' = '-' := rfl
    rw [List.map_append, map_dash hy, List.map_cons, hdash, List.map_append, map_dash hm,
      List.map_cons, hdash, List.map_append, map_dash hd, List.map_cons, hletter.1]
    constructor
    · simp [dashedParts?, hyear, hmonth, hday, after?]
    · simp [stampedParts?, hyear, hmonth, hday, after?, ht]

theorem Stamped.read?_eq {s : String} (h : Stamped s.toList year month day rest) :
    read? s = of? year month day := by
  have htrimmed := h.trimList.1
  obtain ⟨hdashed, hstamped⟩ := stampedParts?_of_stamped htrimmed
  unfold read?
  split
  · next hnil =>
    rw [hnil] at htrimmed
    generalize hcs : ([] : List Char) = cs at htrimmed
    cases htrimmed
    simp at hcs
  · dsimp only
    rw [hdashed, hstamped]
    rfl

theorem isDigit_of_ascii {c : Char} {v : Nat} (h : digitValue? c = some v) (hc : c.toNat < 128) :
    c.isDigit = true := by
  obtain ⟨z, hz, -⟩ := Option.map_eq_some_iff.mp h
  have hrange := List.find?_some hz
  have hzero : ∀ z ∈ Text.zeroDigits, z < 128 → z = 48 := by decide
  simp only [Bool.and_eq_true, decide_eq_true_eq] at hrange
  have h48 : z = 48 := hzero z (List.mem_of_find?_eq_some hz) (by omega)
  have hlow : 48 ≤ c.toNat := by omega
  have hhigh : c.toNat ≤ 57 := by omega
  simp only [Char.isDigit, Bool.and_eq_true, decide_eq_true_eq]
  exact ⟨hlow, hhigh⟩

theorem digits?_ascii {least n : Nat} {ds : List Char} (h : Spells ds n)
    (hascii : ∀ c ∈ ds, c.toNat < 128) (hlength : ds.length = least) (rest : List Char) :
    digits? asciiDigit? least least (ds ++ rest) = some (n, rest) := by
  have hdigit : ∀ c ∈ ds, c.isDigit = true := fun c hc =>
    (h.exists_digitValue? c hc).elim fun _ hv => isDigit_of_ascii hv (hascii c hc)
  obtain ⟨vs, hvs, rfl⟩ := h
  have hsame : ds.map asciiDigit? = vs.map some := by
    rw [← hvs]
    refine List.map_congr_left fun c hc => ?_
    rw [asciiDigit?, if_pos (hdigit c hc), Formula.digitValue?_of_isDigit (hdigit c hc)]
  exact digits?_run hsame hlength.ge hlength.le (.inl hlength)

theorem standard?_of_ascii {ys ms ds : List Char} (hy : Spells ys year) (hys : ys.length = 4)
    (hya : ∀ c ∈ ys, c.toNat < 128) (hm : Spells ms month) (hms : ms.length = 2)
    (hma : ∀ c ∈ ms, c.toNat < 128) (hd : Spells ds day) (hds : ds.length = 2)
    (hda : ∀ c ∈ ds, c.toNat < 128) :
    standard? (ys ++ '-' :: (ms ++ '-' :: ds)) = of? year month day := by
  have hyear := digits?_ascii hy hya hys ('-' :: (ms ++ '-' :: ds))
  have hmonth := digits?_ascii hm hma hms ('-' :: ds)
  have hday := digits?_ascii hd hda hds []
  rw [List.append_nil] at hday
  obtain ⟨c, ms, rfl⟩ := List.exists_cons_of_length_eq_add_one hms
  have hweek : c ≠ 'W' := hm.mem_ne (by decide) c List.mem_cons_self
  rw [List.cons_append] at hmonth
  unfold standard?
  rw [hyear]
  simp [hmonth, hday, after?, hweek]

theorem ofTimestamp?_of_stamped (h : Stamped cs year month day rest)
    (hascii : ∀ c ∈ cs.take 10, c.toNat < 128) :
    ofTimestamp? (cs.flatMap zeroOffset) =
      if isClock (rest.flatMap zeroOffset) then of? year month day else none := by
  cases h with
  | @intro ys ms ds _ t _ _ _ hy hys hm hms hd hds ht =>
    have hlength : (ys ++ '-' :: (ms ++ '-' :: ds)).length = 10 := by simp [hys, hms, hds]
    have hsplit (rest : List Char) : ys ++ '-' :: (ms ++ '-' :: (ds ++ t :: rest)) =
        (ys ++ '-' :: (ms ++ '-' :: ds)) ++ t :: rest := by simp
    rw [hsplit, List.take_left' hlength] at hascii
    simp only [List.forall_mem_append, List.forall_mem_cons] at hascii
    obtain ⟨hya, -, hma, -, hda⟩ := hascii
    have hzulu : digitValue? 'Z' = none := by decide
    have hfront : ∀ c ∈ ys ++ '-' :: (ms ++ '-' :: ds), c ≠ 'Z' := by
      simp only [List.forall_mem_append, List.forall_mem_cons]
      exact ⟨hy.mem_ne hzulu, by decide, hm.mem_ne hzulu, by decide, hd.mem_ne hzulu⟩
    have hletter : zeroOffset t = [t] := by rcases ht with rfl | rfl <;> rfl
    have hexpand : (ys ++ '-' :: (ms ++ '-' :: (ds ++ t :: rest))).flatMap zeroOffset =
        (ys ++ '-' :: (ms ++ '-' :: ds)) ++ t :: rest.flatMap zeroOffset := by
      rw [hsplit, List.flatMap_append, flatMap_zeroOffset hfront, List.flatMap_cons, hletter,
        List.singleton_append]
    rw [hexpand]
    generalize rest.flatMap zeroOffset = clock
    have hday := standard?_of_ascii hy hys hya hm hms hma hd hds hda
    have hten : dayLength? ((ys ++ '-' :: (ms ++ '-' :: ds)) ++ t :: clock) = some 10 := by
      obtain ⟨c, ms, rfl⟩ := List.exists_cons_of_length_eq_add_one hms
      have hweek : c ≠ 'W' := hm.mem_ne (by decide) c List.mem_cons_self
      have hdash : ((ys ++ '-' :: (c :: ms ++ '-' :: ds)) ++ t :: clock)[4]? = some '-' := by
        rw [List.append_assoc, List.getElem?_append_right hys.le, hys]
        rfl
      have hmonth : ((ys ++ '-' :: (c :: ms ++ '-' :: ds)) ++ t :: clock)[5]? = some c := by
        rw [List.append_assoc, List.getElem?_append_right (by omega), hys]
        rfl
      have hlong : ((ys ++ '-' :: (c :: ms ++ '-' :: ds)) ++ t :: clock).length ≠ 7 := by
        rw [List.length_append, hlength]
        omega
      simp only [dayLength?]
      rw [if_neg hlong, if_pos hdash, hmonth, if_neg (by simpa using hweek)]
    have hshort : ¬ ((ys ++ '-' :: (ms ++ '-' :: ds)) ++ t :: clock).length < 7 := by
      rw [List.length_append, hlength]
      omega
    unfold ofTimestamp?
    rw [if_neg hshort, hten, Option.bind_eq_bind, Option.bind_some, List.take_left' hlength,
      List.drop_left' hlength, hday]
    cases of? year month day <;> simp

theorem Stamped.year_le (h : Stamped cs year month day rest) : year ≤ 9999 := by
  cases h with
  | intro hy hys =>
    have hlt := hy.lt
    rw [hys] at hlt
    omega

/-- Year, month and day before a letter T are read as a day just when the calendar has it, and shown
as that day, whatever follows the letter. A reader of the whole timestamp reads the same where a
time of day by the standard follows, and no day where it finds none. -/
theorem read?_stamped {s : String} (h : Stamped s.toList year month day rest) :
    (read? s = some ⟨year, month, day⟩ ↔ Gregorian year month day) ∧
      (read? s = none ↔ ¬ Gregorian year month day) ∧
      (∀ style : DateStyle, style.showText s =
        if (read? s).isSome then style.render ⟨year, month, day⟩ else Text.trim s) ∧
      ((∀ c ∈ s.toList.take 10, c.toNat < 128) →
        let whole := ofTimestamp? ((trimList s.toList).flatMap zeroOffset)
        let clock := trimRightBy isBlank rest
        (IsoTime clock → whole = read? s) ∧
          (isClock (clock.flatMap zeroOffset) = false → whole = none)) := by
  obtain ⟨hday, hnone⟩ := @of?_iff year month day h.year_le
  rw [← h.read?_eq] at hday hnone
  refine ⟨hday, hnone, fun style => ?_, fun hascii => ?_⟩
  · rw [DateStyle.showText]
    by_cases hcalendar : Gregorian year month day
    · rw [hday.mpr hcalendar]
      rfl
    · rw [hnone.mpr hcalendar]
      rfl
  · obtain ⟨htrimmed, hfront⟩ := h.trimList
    rw [← hfront] at hascii
    rw [ofTimestamp?_of_stamped htrimmed hascii, h.read?_eq]
    constructor
    · intro htime
      rw [if_pos (isClock_of_isoTime htime)]
    · intro hclock
      rw [hclock, if_neg Bool.false_ne_true]

end Stamped

theorem read?_stamped_leap :
    Stamped "2024-02-29t23:59:59.5+0130 \n".toList 2024 2 29 "23:59:59.5+0130 \n".toList ∧
      Gregorian 2024 2 29 ∧ IsoTime "23:59:59.5+0130".toList ∧
      DateStyle.long.showText "2024-02-29t23:59:59.5+0130 \n" = "February 29, 2024" ∧
      ofTimestamp? "2024-02-29t23:59:59.5+0130".toList =
        read? "2024-02-29t23:59:59.5+0130 \n" := by
  have hstamped :
      Stamped "2024-02-29t23:59:59.5+0130 \n".toList 2024 2 29 "23:59:59.5+0130 \n".toList :=
    @Stamped.intro ['2', '0', '2', '4'] ['0', '2'] ['2', '9'] _ 't' _ _ _
      ⟨[2, 0, 2, 4], by decide, rfl⟩ rfl ⟨[0, 2], by decide, rfl⟩ rfl ⟨[2, 9], by decide, rfl⟩ rfl
      (.inr rfl)
  have hday : Gregorian 2024 2 29 := (of?_iff (by decide)).1.mp (by decide)
  have hplaces : ∀ c ∈ ['5'], c.isDigit = true := by simp
  have hface : Face [':'] "23:59:59.5".toList [23, 59, 59] :=
    .more (n := 23) (by decide) (.more (n := 59) (by decide) (.last (n := 59) (by decide)
      (.places (.inl rfl) (List.cons_ne_nil '5' []) hplaces)))
  have hoffset : Face [] "0130".toList [1, 30] :=
    .more (n := 1) (by decide) (.last (n := 30) (by decide) .none)
  have htime : IsoTime "23:59:59.5+0130".toList :=
    .offset (.inl rfl) hface ⟨by decide, by decide, by decide⟩ (.inl rfl) (.inr rfl) hoffset
      ⟨by decide, by decide, by decide⟩ (by decide)
  have hclock : trimRightBy isBlank "23:59:59.5+0130 \n".toList = "23:59:59.5+0130".toList := by
    decide +kernel
  have hwhole : (trimList "2024-02-29t23:59:59.5+0130 \n".toList).flatMap zeroOffset =
      "2024-02-29t23:59:59.5+0130".toList := by decide +kernel
  obtain ⟨hread, -, hshown, hstandard⟩ := read?_stamped hstamped
  have hascii : ∀ c ∈ "2024-02-29t23:59:59.5+0130 \n".toList.take 10, c.toNat < 128 := by simp
  have hagree := (hstandard hascii).1
  rw [hclock, hwhole] at hagree
  rw [hread.mpr hday] at hshown
  exact ⟨hstamped, hday, htime, hshown .long, hagree htime⟩

/-- No time of day at all follows the letter, and the day is read nonetheless; behind a blank the
same text makes it no day. -/
theorem read?_stamped_garbage :
    Stamped "2024-03-05Tgarbage".toList 2024 3 5 "garbage".toList ∧ ¬ IsoTime "garbage".toList ∧
      read? "2024-03-05Tgarbage" = some ⟨2024, 3, 5⟩ ∧
      DateStyle.long.showText "2024-03-05Tgarbage" = "March 5, 2024" ∧
      read? "2024-03-05 garbage" = none ∧
      DateStyle.long.showText "2024-03-05 garbage" = "2024-03-05 garbage" := by
  refine ⟨?_, fun htime => ?_, by decide +kernel, by decide +kernel, by decide +kernel,
    by decide +kernel⟩
  · exact @Stamped.intro ['2', '0', '2', '4'] ['0', '3'] ['0', '5'] _ 'T' _ _ _
      ⟨[2, 0, 2, 4], by decide, rfl⟩ rfl ⟨[0, 3], by decide, rfl⟩ rfl ⟨[0, 5], by decide, rfl⟩ rfl
      (.inl rfl)
  · have hclock : isClock ("garbage".toList.flatMap zeroOffset) = false := by decide +kernel
    rw [isClock_of_isoTime htime] at hclock
    cases hclock

end Day
end FormulaTable
