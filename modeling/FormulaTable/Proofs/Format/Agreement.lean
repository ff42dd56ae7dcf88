import FormulaTable.Proofs.Format.Rounded

/-!
# Formats that agree

A format with groups shows the text of the same format without them, and commas stand before every
three digits that others come before. A percentage with two places shows a hundred times the number
that four places show.
-/

namespace FormulaTable.NumberFormat
open Decimal

variable {f g : NumberFormat} {x : Float}

/-- `cs` is `ds` with a comma before every three digits, counted from the end, that more digits
come before. -/
def InThrees (ds cs : List Char) : Prop :=
  ∃ (lead : List Char) (threes : List (List Char)),
    ds = lead ++ threes.flatten ∧ cs = lead ++ threes.flatMap (',' :: ·) ∧
      lead ≠ [] ∧ lead.length ≤ 3 ∧ ∀ three ∈ threes, three.length = 3

theorem InThrees.append {ds cs : List Char} (h : InThrees ds cs) (three : List Char)
    (hthree : three.length = 3) : InThrees (ds ++ three) (cs ++ ',' :: three) := by
  obtain ⟨lead, threes, rfl, rfl, hne, hlead, hthrees⟩ := h
  refine ⟨lead, threes ++ [three], by simp, by simp, hne, hlead, fun other hother => ?_⟩
  rcases List.mem_append.mp hother with hother | hother
  · exact hthrees other hother
  · rw [List.mem_singleton.mp hother, hthree]

theorem inThrees_groupReversed {ds : List Char} (h : ds ≠ []) :
    InThrees ds.reverse (groupReversed ds).reverse := by
  fun_induction groupReversed ds with
  | case1 a b c d rest ih =>
    have hrest := (ih (List.cons_ne_nil d rest)).append [c, b, a] rfl
    simpa using hrest
  | case2 ds hshort =>
    have hlength : ds.length ≤ 3 := by
      rcases ds with _ | ⟨a, _ | ⟨b, _ | ⟨c, _ | ⟨d, rest⟩⟩⟩⟩
      case cons.cons.cons.cons => exact (hshort a b c d rest rfl).elim
      all_goals simp
    exact ⟨ds.reverse, [], by simp, by simp, by simpa using h, by simpa using hlength, by simp⟩

theorem inThrees_grouped {ds : List Char} (h : ds ≠ []) : InThrees ds (grouped ds) := by
  have hne : ds.reverse ≠ [] := by simpa using h
  have hback := inThrees_groupReversed hne
  rwa [List.reverse_reverse] at hback

/-- The texts of `x` are the same but for the commas of one of them, which stand before every three
of the digits before the point. -/
def AgreeInThrees (g f : NumberFormat) (x : Float) : Prop :=
  ∃ s t ds cs tail, g.showDouble x = .ok s ∧ f.showDouble x = .ok t ∧
    s.toList.filter (· ≠ ',') = t.toList ∧
    s.toList = sign (Double.isNegative x) ++ cs ++ tail ∧
    t.toList = sign (Double.isNegative x) ++ ds ++ tail ∧
    (∀ c ∈ ds, c.isDigit = true) ∧ (tail = [] ∨ tail.head? = some '.') ∧ InThrees ds cs

def Shows (f : NumberFormat) (x : Float) (v : ℚ) : Prop :=
  ∃ s, f.showDouble x = .ok s ∧ denoted? (plain s.toList) = some v

theorem shows_count (hx : x.isFinite = true) (f : NumberFormat) :
    Shows f x (signedBy (Double.isNegative x) (f.shownCount x / 10 ^ f.places)) :=
  ⟨_, showDouble_eq hx f, by rw [String.toList_ofList, denoted?_shown]⟩

theorem filter_shown (hpercent : f.percent = false) (negative : Bool) (l : Formula.Literal) :
    (f.shown negative l).filter (· ≠ ',') = sign negative ++ l.text := by
  have hplain := @plain_shown f l negative
  have hlast : (f.shown negative l).getLast? ≠ some '%' := by
    intro h
    rw [percent_mem_shown.mp (List.mem_of_getLast? h)] at hpercent
    cases hpercent
  rwa [plain, if_neg hlast] at hplain

theorem shown_of_not_percent (hpercent : f.percent = false) (negative : Bool)
    (l : Formula.Literal) : f.shown negative l = sign negative ++ f.front l ++ back l := by
  rw [shown, unit, hpercent]
  simp

theorem shownCount_congr (hg : g.percent = false) (hf : f.percent = false)
    (hplaces : g.places = f.places) : g.shownCount x = f.shownCount x := by
  rw [shownCount_eq, shownCount_eq, shownDecimal_of_not_percent hg, shownDecimal_of_not_percent hf,
    hplaces]

theorem agreeInThrees (hx : x.isFinite = true) (hg : g.grouping = true) (hf : f.grouping = false)
    (hpercent : f.percent = false) (hplaces : g.places = f.places) : AgreeInThrees g f x := by
  have hpercent' := percent_of_grouping hg
  have hshown := showDouble_eq hx g
  rw [shownCount_congr hpercent' hpercent hplaces, hplaces] at hshown
  have hplaced := isPlaced_placedLiteral f.places (f.shownCount x)
  have hshown' := showDouble_eq hx f
  generalize placedLiteral f.places (f.shownCount x) = l at hshown hshown' hplaced
  have hfront : g.front l = grouped l.whole := by rw [front, if_pos hg]
  have hfront' : f.front l = l.whole := by
    rw [front, hf]
    rfl
  have htail : back l = [] ∨ (back l).head? = some '.' := by
    unfold back
    cases l.fraction? with
    | none => exact .inl rfl
    | some ds => exact .inr rfl
  refine ⟨_, _, l.whole, grouped l.whole, back l, hshown, hshown', ?_, ?_, ?_, isDigit_whole l,
    htail, inThrees_grouped hplaced.whole⟩
  · rw [String.toList_ofList, String.toList_ofList, filter_shown hpercent',
      shown_of_not_percent hpercent, hfront', text_eq, List.append_assoc]
  · rw [String.toList_ofList, shown_of_not_percent hpercent', hfront]
  · rw [String.toList_ofList, shown_of_not_percent hpercent, hfront']

theorem shownCount_percent (x : Float) : percentFixed2.shownCount x = fixed4.shownCount x := by
  have hscaled : (percentFixed2.shownDecimal x).value * 10 ^ percentFixed2.places =
      (fixed4.shownDecimal x).value * 10 ^ fixed4.places := by
    rw [value_shownDecimal, value_shownDecimal]
    norm_num [percent, places]
    ring
  rw [shownCount_eq, shownCount_eq, countOf_eq_floor, countOf_eq_floor, hscaled]

theorem shows_percent (hx : x.isFinite = true) :
    ∃ v, Shows fixed4 x v ∧ Shows percentFixed2 x (100 * v) := by
  have hpercent := shows_count hx percentFixed2
  rw [shownCount_percent] at hpercent
  refine ⟨_, shows_count hx fixed4, ?_⟩
  have hscaled : (fixed4.shownCount x : ℚ) / 10 ^ percentFixed2.places =
      100 * (fixed4.shownCount x / 10 ^ fixed4.places) := by
    norm_num [places]
    ring
  rw [hscaled] at hpercent
  cases h : Double.isNegative x <;> simpa [h, signedBy] using hpercent

/-- Formats with groups show the same as those without but for the commas, and the percentage shows
a hundred times the number that four places show. -/
theorem formats_agree (hx : x.isFinite = true) :
    AgreeInThrees thousandFixed0 fixed0 x ∧ AgreeInThrees thousandFixed2 fixed2 x ∧
      ∃ v, Shows fixed4 x v ∧ Shows percentFixed2 x (100 * v) :=
  ⟨agreeInThrees hx rfl rfl rfl rfl, agreeInThrees hx rfl rfl rfl rfl, shows_percent hx⟩

theorem formats_agree_million :
    thousandFixed0.showDouble (-1234567.125) = .ok "-1,234,567" ∧
      thousandFixed2.showDouble (-1234567.125) = .ok "-1,234,567.13" ∧
      percentFixed2.showDouble (-1234567.125) = .ok "-123456712.50%" ∧
      AgreeInThrees thousandFixed0 fixed0 (-1234567.125) ∧
      AgreeInThrees thousandFixed2 fixed2 (-1234567.125) ∧
      ∃ v, Shows fixed4 (-1234567.125) v ∧ Shows percentFixed2 (-1234567.125) (100 * v) := by
  have hfinite : (-1234567.125 : Float).isFinite = true := by decide
  exact ⟨by decide +kernel, by decide +kernel, by decide +kernel, formats_agree hfinite⟩

end FormulaTable.NumberFormat
