import FormulaTable.Proofs.Formula.Lexeme

/-!
# Numerals

A text that is read as a decimal is made of digits, signs, points, underscores and the letter of a
power. A count of some places is written as a literal that is read as that count again.
-/

namespace FormulaTable.Decimal
open Text (digitValue?)

def IsNumeric (c : Char) : Prop :=
  (digitValue? c).isSome = true ∨ c ∈ ['+', '-', '_', '.', 'e', 'E']

instance : DecidablePred IsNumeric := fun _ => inferInstanceAs (Decidable (_ ∨ _))

variable {s : List Char}

theorem isNumeric_of_digitValue? {c : Char} {v : Nat} (h : digitValue? c = some v) :
    IsNumeric c := .inl (by rw [h]; rfl)

theorem isNumeric_of_moreDigits : ∀ c ∈ s, IsNumeric c ∨ c ∈ (moreDigits s).2 := by
  fun_induction moreDigits s with
  | case1 => simp
  | case2 d rest v hv ih =>
    have hline : IsNumeric '_' := .inr (by decide)
    have hdigit := isNumeric_of_digitValue? hv
    exact List.forall_mem_cons.mpr ⟨.inl hline, List.forall_mem_cons.mpr ⟨.inl hdigit, ih⟩⟩
  | case3 d rest hv => exact fun c hc => .inr hc
  | case4 d rest _ v hv ih =>
    exact List.forall_mem_cons.mpr ⟨.inl (isNumeric_of_digitValue? hv), ih⟩
  | case5 d rest hv => exact fun c hc => .inr hc

theorem isNumeric_of_digitRun : ∀ c ∈ s, IsNumeric c ∨ c ∈ (digitRun s).2 := by
  fun_cases digitRun s with
  | case1 => simp
  | case2 d rest v hv =>
    have hdigit := isNumeric_of_digitValue? hv
    exact List.forall_mem_cons.mpr ⟨.inl hdigit, isNumeric_of_moreDigits⟩
  | case3 d rest hv => exact fun c hc => .inr hc

theorem isNumeric_of_fractionRun : ∀ c ∈ s, IsNumeric c ∨ c ∈ (fractionRun s).2 := by
  fun_cases fractionRun s with
  | case1 rest =>
    have hpoint : IsNumeric '.' := .inr (by decide)
    exact List.forall_mem_cons.mpr ⟨.inl hpoint, isNumeric_of_digitRun⟩
  | case2 => exact fun c hc => .inr hc

theorem isNumeric_of_sign : ∀ c ∈ s, IsNumeric c ∨ c ∈ (sign s).2 := by
  fun_cases sign s with
  | case1 rest =>
    have hminus : IsNumeric '-' := .inr (by decide)
    exact List.forall_mem_cons.mpr ⟨.inl hminus, fun c hc => .inr hc⟩
  | case2 rest =>
    have hplus : IsNumeric '+' := .inr (by decide)
    exact List.forall_mem_cons.mpr ⟨.inl hplus, fun c hc => .inr hc⟩
  | case3 => exact fun c hc => .inr hc

theorem isNumeric_of_power? {e : Int} (h : power? s = some e) : ∀ c ∈ s, IsNumeric c := by
  unfold power? at h
  split at h
  · simp
  · next d rest =>
    split at h
    · next hletter =>
      have hd : IsNumeric d := .inr (by rcases hletter with rfl | rfl <;> decide)
      refine List.forall_mem_cons.mpr ⟨hd, fun c hc => ?_⟩
      dsimp only at h
      split at h
      · next v vs hrun =>
        rcases isNumeric_of_sign c hc with hc | hc
        · exact hc
        · have hrest := isNumeric_of_digitRun c hc
          rw [hrun] at hrest
          exact hrest.resolve_right List.not_mem_nil
      · cases h
    · cases h

theorem isNumeric_of_read? {r : Bool × Decimal} (h : read? s = some r) : ∀ c ∈ s, IsNumeric c := by
  intro c hc
  unfold read? readUnsigned? at h
  dsimp only at h
  obtain ⟨d, hd, -⟩ := Option.map_eq_some_iff.mp h
  split at hd
  · cases hd
  · obtain ⟨e, he, -⟩ := Option.map_eq_some_iff.mp hd
    rcases isNumeric_of_sign c hc with hc | hc
    · exact hc
    · rcases isNumeric_of_digitRun c hc with hc | hc
      · exact hc
      · rcases isNumeric_of_fractionRun c hc with hc | hc
        · exact hc
        · exact isNumeric_of_power? he c hc

theorem isDigit_of_mem_numeral {n : Nat} : ∀ c ∈ numeral n, c.isDigit = true :=
  fun _ hc => Nat.isDigit_of_mem_toDigits (by decide) (by decide) hc

theorem isDigit_of_mem_padLeft {width : Nat} {cs : List Char} (h : ∀ c ∈ cs, c.isDigit = true) :
    ∀ c ∈ padLeft width '0' cs, c.isDigit = true := by
  intro c hc
  rcases List.mem_append.mp hc with hc | hc
  · rw [List.eq_of_mem_replicate hc]
    decide
  · exact h c hc

theorem length_padLeft {width : Nat} {fill : Char} {cs : List Char} (h : cs.length ≤ width) :
    (padLeft width fill cs).length = width := by
  rw [padLeft, List.length_append, List.length_replicate]
  omega

theorem ofDigits_map (cs : List Char) :
    ofDigits (cs.map (·.toNat - 48)) = Nat.ofDigitChars 10 cs 0 := by
  rw [ofDigits, List.foldl_map]
  rfl

theorem ofDigitChars_numeral (n : Nat) : Nat.ofDigitChars 10 (numeral n) 0 = n :=
  Nat.ofDigitChars_ten_toDigits

theorem ofDigitChars_padLeft (width : Nat) (cs : List Char) :
    Nat.ofDigitChars 10 (padLeft width '0' cs) 0 = Nat.ofDigitChars 10 cs 0 := by
  rw [padLeft, Nat.ofDigitChars_append, Nat.ofDigitChars_replicate_zero, Nat.mul_zero]

def placedLiteral (places count : Nat) : Formula.Literal where
  whole := numeral (count / 10 ^ places)
  fraction? :=
    if places = 0 then none else some (padLeft places '0' (numeral (count % 10 ^ places)))
  isDigit := by
    intro c hc
    rcases List.mem_append.mp hc with hc | hc
    · exact isDigit_of_mem_numeral c hc
    · split at hc
      · cases hc
      · exact isDigit_of_mem_padLeft isDigit_of_mem_numeral c hc
  ne_nil := List.append_ne_nil_of_left_ne_nil Nat.toDigits_ne_nil _

theorem text_placedLiteral (places count : Nat) :
    (placedLiteral places count).text = placedText places count := by
  unfold Formula.Literal.text placedLiteral placedText
  dsimp only
  by_cases h : places = 0
  · simp only [if_pos h]
  · simp only [if_neg h]

theorem decimal_placedLiteral (places count : Nat) :
    (placedLiteral places count).decimal = ⟨count, -places⟩ := by
  unfold Formula.Literal.decimal Formula.Literal.digits placedLiteral
  rw [ofDigits_map, Nat.ofDigitChars_append, ofDigitChars_numeral]
  by_cases h : places = 0
  · simp [h]
  · have hlength : (numeral (count % 10 ^ places)).length ≤ places :=
      (Nat.length_toDigits_le_iff (by decide) (by omega)).mpr
        (Nat.mod_lt _ (Nat.pow_pos (by decide)))
    simp only [if_neg h, Option.getD_some]
    rw [Nat.ofDigitChars_eq_ofDigitChars_zero, length_padLeft hlength, ofDigitChars_padLeft,
      ofDigitChars_numeral, Nat.div_add_mod]

end FormulaTable.Decimal
