import FormulaTable.Proofs.Double.Shape
import FormulaTable.Proofs.Journal.JsonReading

/-!
# Numbers as JSON

A literal with digits in front of its point is read as a whole number if it has no point and no
power of ten, and as a double otherwise, so that whole numbers and finite doubles are read back.
-/

namespace FormulaTable.Journal.Json
open Decimal (IsPlaced exponentText intText numeral)
open Formula (Literal)
open NumberFormat (sign)

variable {rest : List Char}

def EndsValue (rest : List Char) : Prop := ∀ c ∈ rest.head?, c ∈ [',', ']', '\x7d']

inductive IsPower : List Char → Prop
  | none : IsPower []
  | power (width : Nat) (e : Int) : IsPower ('e' :: exponentText width e)

section Digits
variable {ds : List Char} (hds : ∀ c ∈ ds, c.isDigit = true) (hne : ds ≠ [])
variable (hrest : ∀ c ∈ rest.head?, c.isDigit = false)
include hds hne hrest

theorem run?_append : run? (ds ++ rest) = some (ds, rest) := by
  have htake : (ds ++ rest).takeWhile Char.isDigit = ds := by
    rw [List.takeWhile_append_of_pos hds]
    cases rest with
    | nil => simp
    | cons c rest => simp [hrest c rfl]
  have hdrop : (ds ++ rest).dropWhile Char.isDigit = rest := by
    rw [List.dropWhile_append_of_pos hds]
    cases rest with
    | nil => rfl
    | cons c rest => simp [hrest c rfl]
  simp only [run?, htake, hdrop, List.isEmpty_iff, hne, if_false]

theorem whole?_append (hfront : ds.head? = some '0' → ds = ['0']) :
    whole? (ds ++ rest) = some (ds, rest) := by
  by_cases hzero : ds.head? = some '0'
  · rw [hfront hzero]
    rfl
  · obtain ⟨c, cs, rfl⟩ := List.exists_cons_of_ne_nil hne
    rw [whole?.eq_2 (c :: cs ++ rest) fun tail heq => hzero (congrArg some (List.cons.inj heq).1)]
    exact run?_append hds hne hrest

theorem fraction?_point : fraction? ('.' :: ds ++ rest) = some ('.' :: ds, rest) := by
  rw [List.cons_append, fraction?, run?_append hds hne hrest]
  rfl

end Digits

def EndsPlaces (rest : List Char) : Prop := ∀ c ∈ rest.head?, c = 'e' ∨ c ∈ [',', ']', '\x7d']

theorem EndsValue.endsPlaces (h : EndsValue rest) : EndsPlaces rest := fun c hc => .inr (h c hc)

theorem EndsPlaces.ne {d : Char} (hd : d ∉ ['e', ',', ']', '\x7d']) (h : EndsPlaces rest) :
    ∀ c ∈ rest.head?, c ≠ d := by
  rintro c hc rfl
  exact hd (List.mem_cons.mpr (h c hc))

theorem EndsPlaces.isDigit (h : EndsPlaces rest) : ∀ c ∈ rest.head?, c.isDigit = false := by
  intro c hc
  have hmem : c ∈ ['e', ',', ']', '\x7d'] := List.mem_cons.mpr (h c hc)
  fin_cases hmem <;> rfl

theorem EndsPlaces.fraction? (h : EndsPlaces rest) : fraction? rest = some ([], rest) := by
  fun_cases Json.fraction? rest with
  | case1 => exact absurd rfl (h.ne (by decide) '.' rfl)
  | case2 => rfl

theorem exists_fraction {places : Nat} {l : Literal} (hl : IsPlaced places l) :
    ∃ fs, l.text = l.whole ++ fs ∧ (fs = [] ↔ places = 0) ∧ ∀ rest, EndsPlaces rest →
      fraction? (fs ++ rest) = some (fs, rest) ∧
        ∀ c ∈ (fs ++ rest).head?, c.isDigit = false := by
  obtain ⟨whole, _ | ds, hdigits, _⟩ := l
  · exact ⟨[], (List.append_nil whole).symm, by simpa using hl.point,
      fun rest h => ⟨h.fraction?, h.isDigit⟩⟩
  · have hplaces : places ≠ 0 := fun hzero => Option.some_ne_none ds (hl.point.mpr hzero)
    have hds : ∀ c ∈ ds, c.isDigit = true := fun c hc => hdigits c (List.mem_append_right _ hc)
    have hne : ds ≠ [] := by
      rintro rfl
      exact hplaces hl.length.symm
    refine ⟨'.' :: ds, rfl, by simp [hplaces], fun rest h => ⟨?_, ?_⟩⟩
    · exact fraction?_point hds hne h.isDigit
    · rintro c ⟨⟩
      rfl

theorem EndsValue.power? (h : EndsValue rest) : power? rest = some ([], rest) := by
  fun_cases Json.power? rest with
  | case1 => rfl
  | case2 c rest hletter =>
    have hmem := h c rfl
    rcases hletter with rfl | rfl <;> exact absurd hmem (by decide)
  | case3 => rfl

theorem power?_exponentText (width : Nat) (e : Int) (h : EndsValue rest) :
    power? ('e' :: exponentText width e ++ rest) = some ('e' :: exponentText width e, rest) := by
  have hdigits : ∀ c ∈ Decimal.padLeft width '0' (numeral e.natAbs), c.isDigit = true :=
    Decimal.isDigit_of_mem_padLeft Decimal.isDigit_of_mem_numeral
  have hrun := run?_append hdigits
    (List.append_ne_nil_of_right_ne_nil _ (Decimal.numeral_ne_nil _)) h.endsPlaces.isDigit
  unfold exponentText
  by_cases hneg : e < 0 <;> simp [hneg, power?, powerSign, hrun]

theorem IsPower.power? {ps : List Char} (hps : IsPower ps) (h : EndsValue rest) :
    power? (ps ++ rest) = some (ps, rest) ∧ EndsPlaces (ps ++ rest) := by
  cases hps with
  | none => exact ⟨h.power?, h.endsPlaces⟩
  | power width e =>
    refine ⟨power?_exponentText width e h, ?_⟩
    rintro c ⟨⟩
    exact .inl rfl

theorem minus_sign (negative : Bool) {c : Char} (hc : c.isDigit = true) :
    minus (sign negative ++ c :: rest) = (negative, c :: rest) := by
  cases negative with
  | true => rfl
  | false =>
    have hne : c ≠ '-' := Formula.ne_of_isDigit hc (by decide)
    exact minus.eq_2 _ fun tail heq => hne (List.cons.inj heq).1

theorem number?_literal {places : Nat} {l : Literal} {ps : List Char} (negative : Bool)
    (hl : IsPlaced places l) (hps : IsPower ps) (h : EndsValue rest) :
    number? (sign negative ++ (l.text ++ (ps ++ rest))) =
      if places = 0 ∧ ps = [] then
        let n : Int := Nat.ofDigitChars 10 l.whole 0
        some (.whole (if negative then -n else n), rest)
      else (Double.read? (sign negative ++ (l.text ++ ps))).map fun x => (.number x, rest) := by
  obtain ⟨hpower, hends⟩ := hps.power? h
  obtain ⟨fs, htext, hempty, hfraction⟩ := exists_fraction hl
  obtain ⟨hfraction, hend⟩ := hfraction _ hends
  have hdigits : ∀ c ∈ l.whole, c.isDigit = true :=
    fun c hc => l.isDigit c (List.mem_append_left _ hc)
  have hwhole := whole?_append hdigits hl.whole hend hl.front
  have hminus : minus (sign negative ++ (l.whole ++ (fs ++ (ps ++ rest)))) =
      (negative, l.whole ++ (fs ++ (ps ++ rest))) := by
    obtain ⟨c, cs, hcs⟩ := List.exists_cons_of_ne_nil hl.whole
    rw [hcs, List.cons_append]
    exact minus_sign negative (hdigits c (hcs ▸ List.mem_cons_self))
  rw [htext, List.append_assoc]
  simp only [number?, hminus, hwhole, hfraction, hpower, Option.bind_eq_bind, Option.bind_some]
  have honly : (fs.isEmpty && ps.isEmpty) = true ↔ places = 0 ∧ ps = [] := by
    rw [Bool.and_eq_true, List.isEmpty_iff, List.isEmpty_iff, hempty]
  by_cases hcount : places = 0 ∧ ps = []
  · rw [if_pos (honly.mpr hcount), if_pos hcount]
  · rw [if_neg (honly.not.mpr hcount), if_neg hcount, Option.map_eq_bind, List.append_assoc,
      List.append_assoc, ← List.append_assoc l.whole]
    rfl

theorem number?_intText (n : Int) (h : EndsValue rest) :
    number? (intText n ++ rest) = some (.whole n, rest) := by
  have hread := number?_literal (n < 0) (Decimal.isPlaced_placedLiteral 0 n.natAbs) .none h
  have hwhole : (Decimal.placedLiteral 0 n.natAbs).whole = numeral n.natAbs := by
    change numeral (n.natAbs / 1) = _
    rw [Nat.div_one]
  rw [List.nil_append, ← List.append_assoc, ← Double.intText_eq, if_pos ⟨rfl, rfl⟩, hwhole,
    Decimal.ofDigitChars_numeral] at hread
  have hn : (if decide (n < 0) = true then -(n.natAbs : Int) else n.natAbs) = n := by
    simp only [decide_eq_true_iff]
    omega
  dsimp only at hread
  rwa [hn] at hread

theorem number?_ofDouble {x : Float} (hx : x.isFinite = true) (h : EndsValue rest) :
    number? (ofDouble x ++ rest) = some (.number x, rest) := by
  have hread := Double.read?_signed numberLayout hx
  rw [ofDouble, if_pos hx, Double.signed, ← NumberFormat.sign_append, List.append_assoc]
  rw [Double.signed, ← NumberFormat.sign_append] at hread
  obtain ⟨l, places, hl, ⟨htext, hplaces, -⟩ | ⟨width, e, htext, -⟩⟩ :=
    Decimal.exists_literal_layout numberLayout (Double.shortest x)
  · have hnumber := number?_literal (Double.isNegative x) hl .none h
    rw [if_neg fun hcount => hplaces hcount.1, List.append_nil, ← htext, hread] at hnumber
    exact hnumber
  · have hnumber := number?_literal (Double.isNegative x) hl (.power width e) h
    rw [if_neg (by simp), ← List.append_assoc l.text, ← htext, hread] at hnumber
    exact hnumber

end FormulaTable.Journal.Json
