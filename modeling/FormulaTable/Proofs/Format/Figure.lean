import FormulaTable.Proofs.Decimal.Written
import FormulaTable.Proofs.Format.Count
import FormulaTable.Proofs.Text.Trim
import FormulaTable.Table.Compute

/-!
# Reading a shown number

A formula that reads a cell in which a format shows a number reads the text of the cell. A text of
digits and a point is read as the double nearest to the number displayed. A comma between digits and
a percent sign are no part of a number, and so a text with one of them counts as zero.
-/

namespace FormulaTable

namespace NumberFormat
variable {ds : List Char}

theorem mem_groupReversed : ∀ c ∈ groupReversed ds, c ∈ ds ∨ c = ',' := by
  fun_induction groupReversed ds with
  | case1 a b c d rest ih => grind
  | case2 => exact fun c hc => .inl hc

theorem filter_groupReversed (h : ∀ c ∈ ds, c.isDigit = true) :
    (groupReversed ds).filter Char.isDigit = ds := by
  fun_induction groupReversed ds with
  | case1 a b c d rest ih =>
    have hrest := ih fun e he => h e (by simp [he])
    have ha := h a (by simp)
    have hb := h b (by simp)
    have hc := h c (by simp)
    have hcomma : ','.isDigit = false := by decide
    simp [ha, hb, hc, hcomma, hrest]
  | case2 => exact List.filter_eq_self.mpr h

theorem comma_mem_groupReversed (h : ',' ∉ ds) : ',' ∈ groupReversed ds ↔ 3 < ds.length := by
  match ds, h with
  | a :: b :: c :: d :: rest, _ => simp [groupReversed]
  | [], h | [_], h | [_, _], h | [_, _, _], h => exact iff_of_false h (by simp)

theorem mem_grouped : ∀ c ∈ grouped ds, c ∈ ds ∨ c = ',' := by
  intro c hc
  exact (mem_groupReversed c (List.mem_reverse.mp hc)).imp_left List.mem_reverse.mp

theorem filter_grouped (h : ∀ c ∈ ds, c.isDigit = true) :
    (grouped ds).filter Char.isDigit = ds := by
  have hback : ∀ c ∈ ds.reverse, c.isDigit = true := fun c hc => h c (List.mem_reverse.mp hc)
  rw [grouped, List.filter_reverse, filter_groupReversed hback, List.reverse_reverse]

theorem comma_mem_grouped (h : ',' ∉ ds) : ',' ∈ grouped ds ↔ 3 < ds.length := by
  have hback : ',' ∉ ds.reverse := fun hc => h (List.mem_reverse.mp hc)
  rw [grouped, List.mem_reverse, comma_mem_groupReversed hback, List.length_reverse]

/-- The number that a text displays: commas only group its digits, and a percent sign stands for
hundredths. -/
def figure (s : List Char) : Decimal where
  digits := Nat.ofDigitChars 10 (s.filter Char.isDigit) 0
  exponent := -((s.dropWhile (· ≠ '.')).filter Char.isDigit).length - if '%' ∈ s then 2 else 0

def sign (negative : Bool) : List Char := if negative then ['-'] else []

theorem sign_append (negative : Bool) (cs : List Char) :
    sign negative ++ cs = if negative then '-' :: cs else cs := by
  cases negative <;> rfl

def unit (f : NumberFormat) : List Char := if f.percent then ['%'] else []

def front (f : NumberFormat) (l : Formula.Literal) : List Char :=
  if f.grouping then grouped l.whole else l.whole

def back (l : Formula.Literal) : List Char := l.fraction?.elim [] ('.' :: ·)

def shown (f : NumberFormat) (negative : Bool) (l : Formula.Literal) : List Char :=
  sign negative ++ f.front l ++ back l ++ f.unit

variable {f : NumberFormat} {l : Formula.Literal} {negative : Bool}

theorem text_eq (l : Formula.Literal) : l.text = l.whole ++ back l := by
  unfold Formula.Literal.text back
  cases l.fraction? with
  | none => exact (List.append_nil _).symm
  | some ds => rfl

theorem isDigit_whole (l : Formula.Literal) : ∀ c ∈ l.whole, c.isDigit = true :=
  fun c hc => l.isDigit c (List.mem_append_left _ hc)

theorem comma_notMem_whole (l : Formula.Literal) : ',' ∉ l.whole :=
  fun hc => absurd (isDigit_whole l _ hc) (by decide)

theorem span_text (l : Formula.Literal) :
    l.text.takeWhile (· ≠ '.') = l.whole ∧ l.text.dropWhile (· ≠ '.') = back l := by
  have hwhole : ∀ c ∈ l.whole, decide (c ≠ '.') = true :=
    fun c hc => decide_eq_true (Formula.ne_of_isDigit (isDigit_whole l c hc) (by decide))
  rw [text_eq, List.takeWhile_append_of_pos hwhole, List.dropWhile_append_of_pos hwhole, back]
  cases l.fraction? <;> simp

theorem text?_eq {x : Float} (hx : x.isFinite = true) (f : NumberFormat) :
    f.text? x = some (String.ofList (f.shown (Double.isNegative x)
      (Decimal.placedLiteral f.places (f.shownCount x)))) := by
  have hnan : x.isNaN = false := Double.isNaN_of_isFinite hx
  obtain ⟨hfront, hback⟩ := span_text (Decimal.placedLiteral f.places (f.shownCount x))
  have hcount : f.countText (f.shownCount x) =
      f.front (Decimal.placedLiteral f.places (f.shownCount x)) ++
        back (Decimal.placedLiteral f.places (f.shownCount x)) := by
    rw [countText, ← Decimal.text_placedLiteral, hfront, hback, front]
  rw [text?, hnan, hx, hcount]
  unfold shown sign Double.signed unit
  cases Double.isNegative x <;> simp

theorem mem_back : ∀ c ∈ back l, c.isDigit = true ∨ c = '.' := by
  intro c hc
  have hdigit := fun h => l.isDigit c (List.mem_append_right l.whole h)
  unfold back at hc
  cases hf : l.fraction? with
  | none => simp [hf] at hc
  | some ds =>
    rw [hf] at hc hdigit
    exact (List.mem_cons.mp hc).symm.imp_left hdigit

theorem mem_front : ∀ c ∈ f.front l, c.isDigit = true ∨ c = ',' := by
  intro c hc
  unfold front at hc
  split at hc
  · exact (mem_grouped c hc).imp_left (isDigit_whole l c)
  · exact .inl (isDigit_whole l c hc)

theorem notMem_back {c : Char} (hdigit : c.isDigit = false) (hpoint : c ≠ '.') : c ∉ back l := by
  intro hc
  rcases mem_back c hc with h | h
  · rw [hdigit] at h
    cases h
  · exact hpoint h

theorem notMem_front {c : Char} (hdigit : c.isDigit = false) (hcomma : c ≠ ',') :
    c ∉ f.front l := by
  intro hc
  rcases mem_front c hc with h | h
  · rw [hdigit] at h
    cases h
  · exact hcomma h

theorem filter_front (f : NumberFormat) (l : Formula.Literal) :
    (f.front l).filter Char.isDigit = l.whole := by
  unfold front
  split
  · exact filter_grouped (isDigit_whole l)
  · exact List.filter_eq_self.mpr (isDigit_whole l)

theorem comma_mem_front : ',' ∈ f.front l ↔ f.grouping = true ∧ 3 < l.whole.length := by
  unfold front
  split
  · next hgrouping =>
    rw [comma_mem_grouped (comma_notMem_whole l)]
    exact (and_iff_right hgrouping).symm
  · next hgrouping => exact iff_of_false (comma_notMem_whole l) fun h => hgrouping h.1

theorem comma_mem_shown : ',' ∈ f.shown negative l ↔ f.grouping = true ∧ 3 < l.whole.length := by
  have hsign : ',' ∉ sign negative := by cases negative <;> decide
  have hunit : ',' ∉ f.unit := by unfold unit; cases f.percent <;> decide
  have hback : ',' ∉ back l := notMem_back (by decide) (by decide)
  rw [← comma_mem_front]
  simp [shown, hsign, hunit, hback]

theorem percent_mem_shown : '%' ∈ f.shown negative l ↔ f.percent = true := by
  have hsign : '%' ∉ sign negative := by cases negative <;> decide
  have hfront : '%' ∉ f.front l := notMem_front (by decide) (by decide)
  have hback : '%' ∉ back l := notMem_back (by decide) (by decide)
  have hunit : '%' ∈ f.unit ↔ f.percent = true := by unfold unit; cases f.percent <;> decide
  simp [shown, hsign, hfront, hback, hunit]

theorem filter_back (l : Formula.Literal) :
    (back l).filter Char.isDigit = l.fraction?.getD [] := by
  have hfraction := fun c hc => l.isDigit c (List.mem_append_right l.whole hc)
  unfold back
  cases hf : l.fraction? with
  | none => rfl
  | some ds =>
    rw [hf] at hfraction
    exact List.filter_eq_self.mpr hfraction

theorem filter_unit (f : NumberFormat) : f.unit.filter Char.isDigit = [] := by
  unfold unit
  cases f.percent <;> decide

theorem filter_dropWhile_back (f : NumberFormat) (l : Formula.Literal) :
    ((back l ++ f.unit).dropWhile (· ≠ '.')).filter Char.isDigit = l.fraction?.getD [] := by
  rw [← filter_back]
  -- The point, if there is one, comes first behind the whole part.
  have hback : back l = [] ∨ ∃ ds, back l = '.' :: ds := by
    unfold back
    cases l.fraction? with
    | none => exact .inl rfl
    | some ds => exact .inr ⟨ds, rfl⟩
  rcases hback with hnil | ⟨ds, hcons⟩
  · rw [hnil, unit]
    cases f.percent <;> decide
  · simp [hcons, filter_unit]

theorem figure_shown :
    figure (f.shown negative l) =
      ⟨l.decimal.digits, l.decimal.exponent - if f.percent then 2 else 0⟩ := by
  have hsign : (sign negative).filter Char.isDigit = [] := by cases negative <;> decide
  have hdigits : (f.shown negative l).filter Char.isDigit = l.digits := by
    simp [shown, hsign, filter_front, filter_back, filter_unit, Formula.Literal.digits]
  have hpoint : ∀ c ∈ sign negative ++ f.front l, decide (c ≠ '.') = true := by
    intro c hc
    rw [decide_eq_true_iff]
    rintro rfl
    rcases List.mem_append.mp hc with hc | hc
    · cases negative <;> revert hc <;> decide
    · exact notMem_front (by decide) (by decide) hc
  rw [figure, hdigits, shown, List.append_assoc, List.dropWhile_append_of_pos hpoint,
    filter_dropWhile_back, ← List.append_assoc, ← shown, Formula.Literal.decimal,
    Decimal.ofDigits_map]
  simp only [percent_mem_shown]

theorem shown_of_plain (hcomma : ',' ∉ f.shown negative l) (hpercent : '%' ∉ f.shown negative l) :
    f.shown negative l = sign negative ++ l.text := by
  have hfront : f.front l = l.whole := by
    have hdigits : ∀ c ∈ f.front l, c.isDigit = true := by
      intro c hc
      refine (mem_front c hc).resolve_right ?_
      rintro rfl
      exact hcomma (by simp [shown, hc])
    rw [← filter_front f l, List.filter_eq_self.mpr hdigits]
  have hunit : f.unit = [] := by
    rw [percent_mem_shown] at hpercent
    rw [unit, if_neg hpercent]
  rw [shown, hfront, hunit, List.append_nil, List.append_assoc, ← text_eq]

theorem mem_shown : ∀ c ∈ f.shown negative l, c.isDigit = true ∨ c ∈ ['-', ',', '.', '%'] := by
  intro c hc
  rcases List.mem_append.mp hc with hc | hc
  · rcases List.mem_append.mp hc with hc | hc
    · rcases List.mem_append.mp hc with hc | hc
      · cases negative <;> simp_all [sign]
      · exact (mem_front c hc).imp_right (by rintro rfl; decide)
    · exact (mem_back c hc).imp_right (by rintro rfl; decide)
  · unfold unit at hc
    cases hp : f.percent <;> simp_all

theorem trimList_shown : Text.trimList (f.shown negative l) = f.shown negative l := by
  refine Text.trimBy_of_forall_not fun c hc => ?_
  rcases mem_shown c hc with hdigit | hother
  · exact Text.isBlank_of_isDigit hdigit
  · simp only [List.mem_cons, List.not_mem_nil, or_false] at hother
    rcases hother with rfl | rfl | rfl | rfl <;> decide

theorem numberOfText_eq_zero {s : String} {c : Char} (hc : c ∈ Text.trimList s.toList)
    (hn : ¬ Decimal.IsNumeric c) : Cell.numberOfText s = 0 := by
  have hnone : Double.read? (Text.trimList s.toList) = none := by
    rw [Double.read?, Option.map_eq_none_iff, Option.eq_none_iff_forall_not_mem]
    exact fun r hr => hn (Decimal.isNumeric_of_read? hr c hc)
  rw [Cell.numberOfText, hnone]

theorem numberOfText_separated
    (h : ',' ∈ f.shown negative l ∨ '%' ∈ f.shown negative l) :
    Cell.numberOfText (String.ofList (f.shown negative l)) = 0 := by
  have hkept {c : Char} (hc : c ∈ f.shown negative l) :
      c ∈ Text.trimList (String.ofList (f.shown negative l)).toList := by
    rwa [String.toList_ofList, trimList_shown]
  rcases h with h | h
  · exact numberOfText_eq_zero (hkept h) (by decide)
  · exact numberOfText_eq_zero (hkept h) (by decide)

theorem read?_signed (negative : Bool) (l : Formula.Literal) :
    Double.read? (sign negative ++ l.text) = some (Double.ofDecimal negative l.decimal) := by
  rw [sign_append, Double.read?, Decimal.read?_signed negative l.readUnsigned?_text]
  rfl

theorem numberOfText_plain (hcomma : ',' ∉ f.shown negative l)
    (hpercent : '%' ∉ f.shown negative l) :
    Cell.numberOfText (String.ofList (f.shown negative l)) =
      Cell.orZero (Double.ofDecimal negative l.decimal) := by
  rw [Cell.numberOfText, String.toList_ofList, trimList_shown, shown_of_plain hcomma hpercent,
    read?_signed]

theorem value_figure (f : NumberFormat) (negative : Bool) (count : Nat) :
    (figure (f.shown negative (Decimal.placedLiteral f.places count))).value =
      count / 10 ^ (f.places + if f.percent then 2 else 0) := by
  have hexponent : (-f.places : Int) - (if f.percent then 2 else 0) =
      -((f.places + if f.percent then 2 else 0 : Nat) : Int) := by
    split <;> omega
  rw [figure_shown, Decimal.decimal_placedLiteral, hexponent, Decimal.value, zpow_neg,
    zpow_natCast, div_eq_mul_inv]

theorem three_lt_length_numeral (places count : Nat) :
    3 < (Decimal.placedLiteral places count).whole.length ↔ (1000 : ℚ) ≤ count / 10 ^ places := by
  have hlength := @Nat.length_toDigits_le_iff 10 (count / 10 ^ places) 3 (by decide) (by decide)
  have hscale : (0 : ℚ) < 10 ^ places := pow_pos (by norm_num) _
  have hwhole : 3 < (Decimal.placedLiteral places count).whole.length ↔
      1000 ≤ count / 10 ^ places := by
    change 3 < (Nat.toDigits 10 (count / 10 ^ places)).length ↔ _
    omega
  rw [hwhole, Nat.le_div_iff_mul_le (Nat.pow_pos (by decide)), le_div_iff₀ hscale]
  exact_mod_cast Iff.rfl

theorem percent_of_grouping (h : f.grouping = true) : f.percent = false := by
  cases f <;> first | rfl | cases h

theorem inv_le_of_ne_zero {count : Nat} (h : (count : ℚ) / 10 ^ f.places ≠ 0) :
    ((10 : ℚ) ^ 6)⁻¹ ≤ count / 10 ^ f.places := by
  have hscale : (0 : ℚ) < 10 ^ f.places := pow_pos (by norm_num) _
  have hone : (1 : ℚ) ≤ count := by
    have hcount : count ≠ 0 := fun h0 => h (by rw [h0, Nat.cast_zero, zero_div])
    exact_mod_cast Nat.one_le_iff_ne_zero.mpr hcount
  calc ((10 : ℚ) ^ 6)⁻¹ ≤ (10 ^ f.places)⁻¹ :=
        inv_anti₀ hscale (pow_le_pow_right₀ (by norm_num) f.places_le)
    _ = 1 / 10 ^ f.places := inv_eq_one_div _
    _ ≤ count / 10 ^ f.places := div_le_div_of_nonneg_right hone hscale.le

theorem reading_plain {x : Float} (hx : x.isFinite = true) (hp : f.percent = false)
    (negative : Bool) {d : Decimal} (hd : d.value = f.shownCount x / 10 ^ f.places) :
    let y := Cell.orZero (Double.ofDecimal negative d)
    y.isFinite = true ∧ Double.Rounds d.value y ∧ Double.isNegative y = negative ∧
      (d.value ≠ 0 → (y == 0) = false) := by
  intro y
  have hround := Double.rounds_ofDecimal negative d
  have hfinite : (Double.ofDecimal negative d).isFinite = true := by
    rw [hround.finite, hd]
    exact shown_lt hx hp
  have hy : y = Double.ofDecimal negative d := if_pos hfinite
  rw [hy]
  refine ⟨hfinite, hround, Double.isNegative_ofDecimal negative d, fun hne => ?_⟩
  rw [hd] at hne
  exact hround.beq_zero_eq_false hfinite
    (Double.inv_unitsPerOne_le.trans (hd ▸ inv_le_of_ne_zero hne))

/-- What a formula reads in a cell with a shown number: the double nearest to the number displayed,
which is not zero unless the number displayed is; but zero where the text has a comma, as with
groups from a thousand on, or a percent sign. -/
theorem read_back {x : Float} (hx : x.isFinite = true) (f : NumberFormat) :
    ∃ s y, f.text? x = some s ∧ Table.cellText (some f) (.number x) = s ∧
      (Cell.text s).toNumber = .ok y ∧
      (figure s.toList).value = f.shownCount x / 10 ^ (f.places + if f.percent then 2 else 0) ∧
      (',' ∈ s.toList ↔ f.grouping = true ∧ 1000 ≤ (figure s.toList).value) ∧
      ('%' ∈ s.toList ↔ f.percent = true) ∧
      (',' ∉ s.toList → '%' ∉ s.toList →
        y.isFinite = true ∧ Double.Rounds (figure s.toList).value y ∧
          Double.isNegative y = Double.isNegative x ∧
          ((figure s.toList).value ≠ 0 → (y == 0) = false)) ∧
      (',' ∈ s.toList ∨ '%' ∈ s.toList → y = 0) := by
  have htext := text?_eq hx f
  have hvalue := value_figure f (Double.isNegative x) (f.shownCount x)
  have hgroups := three_lt_length_numeral f.places (f.shownCount x)
  have hdecimal := Decimal.decimal_placedLiteral f.places (f.shownCount x)
  refine ⟨_, _, htext, by rw [Table.cellText, htext, Option.getD_some], rfl, ?_⟩
  rw [String.toList_ofList]
  generalize Decimal.placedLiteral f.places (f.shownCount x) = l at *
  refine ⟨hvalue, ?_, percent_mem_shown, ?_, ?_⟩
  · rw [comma_mem_shown, hvalue]
    refine and_congr_right fun hgrouping => ?_
    rw [hgroups, percent_of_grouping hgrouping]
    rfl
  · intro hcomma hpercent
    have hplain : f.percent = false := by simpa [percent_mem_shown] using hpercent
    have hliteral : l.decimal.value = f.shownCount x / 10 ^ f.places := by
      rw [hdecimal, Decimal.value, zpow_neg, zpow_natCast, div_eq_mul_inv]
    have hfigure : (figure (f.shown (Double.isNegative x) l)).value = l.decimal.value := by
      rw [hvalue, hliteral, hplain]
      rfl
    rw [numberOfText_plain hcomma hpercent, hfigure]
    exact reading_plain hx hplain _ hliteral
  · exact numberOfText_separated

theorem read_back_negative :
    fixed2.text? (-0.625) = some "-0.63" ∧ ∃ y, (Cell.text "-0.63").toNumber = .ok y ∧
      y.isFinite = true ∧ Double.Rounds (63 / 100) y ∧ Double.isNegative y = true ∧
      (y == 0) = false := by
  obtain ⟨s, y, htext, -, hread, -, -, -, hplain, -⟩ :=
    @read_back (-0.625) (by decide) .fixed2
  have hshown : fixed2.text? (-0.625) = some "-0.63" := by decide +kernel
  obtain rfl : "-0.63" = s := Option.some.inj (hshown.symm.trans htext)
  have hfigure : figure "-0.63".toList = ⟨63, -2⟩ := by decide +kernel
  have hvalue : (figure "-0.63".toList).value = 63 / 100 := by
    rw [hfigure, Decimal.value]
    norm_num
  obtain ⟨hfinite, hround, hsign, hzero⟩ := hplain (by decide) (by decide)
  rw [hvalue] at hround hzero
  exact ⟨hshown, y, hread, hfinite, hround, hsign.trans (by decide), hzero (by norm_num)⟩

/-- Shown with a group or with a percent sign, a number is read as zero by the next formula, which
is not the nearest double. -/
theorem read_back_zero :
    (thousandFixed0.text? 1234 = some "1,234" ∧ (figure "1,234".toList).value = 1234 ∧
      (Cell.text "1,234").toNumber = .ok 0 ∧ ¬ Double.Rounds 1234 0) ∧
    percentFixed2.text? 0.125 = some "12.50%" ∧ (figure "12.50%".toList).value = 1 / 8 ∧
      (Cell.text "12.50%").toNumber = .ok 0 ∧ ¬ Double.Rounds (1 / 8) 0 := by
  have hzero {q : ℚ} (hq : (10 ^ 6)⁻¹ ≤ q) : ¬ Double.Rounds q 0 := by
    intro h
    have hne := h.beq_zero_eq_false (by decide) (Double.inv_unitsPerOne_le.trans hq)
    exact absurd hne (by decide)
  have hread {s : String} (h : Cell.numberOfText s = 0) : (Cell.text s).toNumber = .ok 0 :=
    congrArg Except.ok h
  refine ⟨⟨by decide +kernel, ?_, ?_, hzero (by norm_num)⟩, by decide +kernel, ?_, ?_,
    hzero (by norm_num)⟩
  · have hfigure : figure "1,234".toList = ⟨1234, 0⟩ := by decide +kernel
    rw [hfigure, Decimal.value]
    norm_num
  · exact hread (@numberOfText_eq_zero _ ',' (by decide +kernel) (by decide))
  · have hfigure : figure "12.50%".toList = ⟨1250, -4⟩ := by decide +kernel
    rw [hfigure, Decimal.value]
    norm_num
  · exact hread (@numberOfText_eq_zero _ '%' (by decide +kernel) (by decide))

end NumberFormat
end FormulaTable
