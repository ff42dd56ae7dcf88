import FormulaTable.Proofs.Decimal.Written
import FormulaTable.Proofs.Double.Fewest
import FormulaTable.Proofs.Double.Whole

/-!
# The number that a canonical text denotes

Below `10 ^ 21` a canonical text denotes the double rounded to six places, which changes no whole
number, and the zeros dropped from its end are worth nothing. From `10 ^ 21` on it denotes the
shortest decimal.
-/

namespace FormulaTable
open Formula (Literal)

namespace Decimal

theorem dropZeros_eq (cs : List Char) : dropZeros cs = cs.rdropWhile (· == '0') := rfl

theorem exists_dropZeros (cs : List Char) :
    ∃ zeros, cs = dropZeros cs ++ List.replicate zeros '0' := by
  have hzeros : ∀ c ∈ cs.rtakeWhile (· == '0'), c = '0' :=
    fun c hc => by simpa using List.mem_rtakeWhile_imp hc
  have hsplit := List.rdropWhile_append_rtakeWhile (p := (· == '0')) (l := cs)
  rw [List.eq_replicate_of_mem hzeros, ← dropZeros_eq] at hsplit
  exact ⟨_, hsplit.symm⟩

theorem mem_of_mem_dropZeros {cs : List Char} : ∀ c ∈ dropZeros cs, c ∈ cs := by
  obtain ⟨zeros, hsplit⟩ := exists_dropZeros cs
  intro c hc
  rw [hsplit]
  exact List.mem_append_left _ hc

theorem dropZeros_concat {cs : List Char} (h : dropZeros cs ≠ []) :
    ∃ front c, dropZeros cs = front ++ [c] ∧ c ≠ '0' := by
  have hlast : ¬ ((dropZeros cs).getLast h == '0') = true :=
    List.rdropWhile_last_not (fun c : Char => c == '0') cs h
  exact ⟨_, _, (List.dropLast_append_getLast h).symm, by simpa using hlast⟩

theorem getLast?_dropZeros (cs : List Char) : (dropZeros cs).getLast? ≠ some '0' := by
  by_cases hnil : dropZeros cs = []
  · simp [hnil]
  · obtain ⟨front, c, hconcat, hc⟩ := dropZeros_concat hnil
    rw [hconcat, List.getLast?_concat, Ne, Option.some.injEq]
    exact hc

def keptPlaces? (ds : List Char) : Option (List Char) :=
  if dropZeros ds = [] then none else some (dropZeros ds)

def withoutZeros (l : Literal) (h : l.whole ≠ []) : Literal where
  whole := l.whole
  fraction? := l.fraction?.bind keptPlaces?
  isDigit := by
    intro c hc
    refine l.isDigit c ((List.mem_append.mp hc).elim (List.mem_append_left _) fun hc => ?_)
    refine List.mem_append_right _ ?_
    unfold keptPlaces? at hc
    cases hf : l.fraction? with
    | none => simp [hf] at hc
    | some ds =>
      rw [hf, Option.bind_some] at hc
      split at hc
      · cases hc
      · exact mem_of_mem_dropZeros c hc
  ne_nil := List.append_ne_nil_of_left_ne_nil h _

theorem value_withoutZeros (l : Literal) (h : l.whole ≠ []) :
    (withoutZeros l h).decimal.value = l.decimal.value := by
  rw [value_literal, value_literal]
  unfold withoutZeros Literal.digits
  dsimp only
  cases l.fraction? with
  | none => rfl
  | some ds =>
    obtain ⟨zeros, hds⟩ := exists_dropZeros ds
    have hkept : (keptPlaces? ds).getD [] = dropZeros ds := by
      unfold keptPlaces?
      split
      · next hnil => exact hnil.symm
      · rfl
    have hlength : -(((dropZeros ds).length + zeros : Nat) : Int) =
        -((dropZeros ds).length : Int) - zeros := by omega
    rw [Option.bind_some, hkept, Option.getD_some]
    conv_rhs => rw [hds, ← List.append_assoc, Nat.ofDigitChars_append,
      Nat.ofDigitChars_replicate_zero, List.length_append, List.length_replicate, hlength,
      zpow_sub₀ (by norm_num), zpow_natCast]
    push_cast
    field_simp

end Decimal

namespace Double
open Decimal

theorem dropPlaces_eq (cs : List Char) :
    dropPlaces cs = (dropZeros cs).rdropWhile (· == '.') := by
  simp [dropPlaces, dropZeros, List.rdropWhile]

theorem text_withoutZeros {l : Literal} (h : l.whole ≠ []) {ds : List Char}
    (hds : l.fraction? = some ds) :
    (withoutZeros l h).text =
      l.whole ++ if dropZeros ds = [] then [] else '.' :: dropZeros ds := by
  unfold Literal.text withoutZeros keptPlaces?
  simp only [hds, Option.bind_some]
  by_cases hnil : dropZeros ds = []
  · simp [hnil]
  · simp [hnil]

theorem dropPlaces_text {l : Literal} (h : l.whole ≠ []) (hf : l.fraction? ≠ none)
    (cs : List Char) : dropPlaces (cs ++ l.text) = cs ++ (withoutZeros l h).text := by
  obtain ⟨ds, hds⟩ := Option.ne_none_iff_exists'.mp hf
  obtain ⟨zeros, hzeros⟩ := exists_dropZeros ds
  have hdigit {c : Char} (hc : c ∈ l.whole ++ ds) : ¬ (c == '.') = true := by
    have hne := Formula.ne_of_isDigit (d := '.') (l.isDigit c (by simpa [hds] using hc)) (by decide)
    simpa using hne
  have hsplit : cs ++ l.text =
      cs ++ l.whole ++ '.' :: dropZeros ds ++ List.replicate zeros '0' := by
    conv_lhs => rw [Literal.text, hds, hzeros]
    simp
  rw [text_withoutZeros h hds, hsplit, dropPlaces_eq, dropZeros_append_replicate,
    ← List.append_assoc]
  by_cases hnil : dropZeros ds = []
  · -- The point goes as well, but the digits before it stay.
    obtain ⟨front, c, hwhole⟩ : ∃ front c, l.whole = front ++ [c] :=
      ⟨_, _, (List.dropLast_append_getLast h).symm⟩
    have hc : ¬ (c == '.') = true := hdigit (by simp [hwhole])
    rw [hnil, if_pos rfl, dropZeros_append_of_ne (by decide),
      List.rdropWhile_concat_pos (· == '.') _ '.' rfl, List.append_nil, hwhole,
      ← List.append_assoc, List.rdropWhile_concat_neg (· == '.') _ c hc]
  · obtain ⟨front, c, hkept, hzero⟩ := dropZeros_concat hnil
    have hc : ¬ (c == '.') = true :=
      hdigit (List.mem_append_right _ (mem_of_mem_dropZeros c (by simp [hkept])))
    rw [if_neg hnil, hkept, ← List.cons_append, ← List.append_assoc,
      dropZeros_append_of_ne hzero, List.rdropWhile_concat_neg (· == '.') _ c hc, List.append_assoc]

theorem denoted?_dropPlaces {places : Nat} (hp : places ≠ 0) (negative : Bool) (count : Nat) :
    denoted? (dropPlaces (if negative then '-' :: Decimal.placedText places count
      else Decimal.placedText places count)) = some (signedBy negative (count / 10 ^ places)) := by
  have hplaced := isPlaced_placedLiteral places count
  have hpoint : (placedLiteral places count).fraction? ≠ none := fun h => hp (hplaced.point.mp h)
  have hcut := dropPlaces_text hplaced.whole hpoint
  have hvalue := value_withoutZeros _ hplaced.whole
  have hdenoted := denoted?_signed negative (withoutZeros _ hplaced.whole).readUnsigned?_text
  rw [hvalue, value_placedLiteral] at hdenoted
  rw [← text_placedLiteral, ← hdenoted]
  cases negative with
  | false => exact congrArg denoted? (hcut [])
  | true => exact congrArg denoted? (hcut ['-'])

theorem denoted?_intText (n : Int) : denoted? (intText n) = some (n : ℚ) := by
  have hread : readUnsigned? (numeral n.natAbs) = some ⟨n.natAbs, 0⟩ := by
    have h := (placedLiteral 0 n.natAbs).readUnsigned?_text
    rw [decimal_placedLiteral, text_placedLiteral] at h
    simpa [Decimal.placedText] using h
  have hdenoted := denoted?_signed (decide (n < 0)) hread
  have hvalue : signedBy (decide (n < 0)) (Decimal.value ⟨n.natAbs, 0⟩) = n := by
    rw [Decimal.value, zpow_zero, mul_one]
    unfold signedBy
    by_cases hneg : n < 0
    · have hint : -(n.natAbs : Int) = n := by omega
      rw [if_pos (decide_eq_true hneg), ← Int.cast_natCast, ← Int.cast_neg, hint]
    · have hint : (n.natAbs : Int) = n := by omega
      rw [if_neg (by simpa using hneg), ← Int.cast_natCast, hint]
  rwa [hvalue] at hdenoted

variable {x : Float}

def written (x : Float) : ℚ :=
  if wholePart x < powerThreshold then countOf 6 x / 10 ^ 6 else (shortest x).value

theorem denoted?_naturalText (hx : x.isFinite = true) :
    denoted? (naturalText x) = some (signedBy (isNegative x) (shortest x).value) := by
  obtain ⟨d, hread, hvalue⟩ := readUnsigned?_layout natural (shortest x)
  rw [naturalText, if_pos hx, signed, denoted?_signed (isNegative x) hread, hvalue]

theorem countOf_of_isIntegral (h : isIntegral x = true) (places : Nat) :
    countOf places x = wholePart x * 10 ^ places := by
  rw [countOf, units_of_isIntegral h, Nat.mul_right_comm]
  exact Rounding.toEven_mul_right _ unitsPerOne_pos

theorem toInt_eq (x : Float) : (toInt x : ℚ) = signedBy (isNegative x) (wholePart x) := by
  unfold toInt signedBy
  split <;> simp

theorem denoted?_canonicalText (hx : x.isFinite = true) :
    denoted? (canonicalText x) = some (signedBy (isNegative x) (written x)) := by
  unfold canonicalText written
  by_cases hint : isIntegral x = true
  · rw [if_pos hint]
    by_cases hlarge : powerThreshold ≤ wholePart x
    · rw [if_pos hlarge, if_neg (Nat.not_lt.mpr hlarge), denoted?_naturalText hx]
    · rw [if_neg hlarge, if_pos (Nat.lt_of_not_le hlarge), denoted?_intText, toInt_eq,
        countOf_of_isIntegral hint, Nat.cast_mul, Nat.cast_pow, Nat.cast_ofNat,
        mul_div_cancel_right₀ _ (by norm_num)]
  · have hsmall : wholePart x < powerThreshold := by
      by_contra hlarge
      refine hint (isIntegral_of_le_wholePart hx ((Nat.le_of_lt ?_).trans (Nat.not_lt.mp hlarge)))
      decide
    rw [if_neg hint, if_pos hsmall, placedText, if_pos hx]
    exact denoted?_dropPlaces (by decide) (isNegative x) (countOf 6 x)

end Double
end FormulaTable
