import FormulaTable.Proofs.Double.Whole
import FormulaTable.Proofs.Formula.Coherence

/-!
# Formulas of one token

A formula of one token is evaluated without a stack, and a field on its own is shown as it is. The
stack machine would give the same, except for a number with a fraction: shown as it is it keeps every
digit, on the stack it has six places at most.
-/

namespace FormulaTable

def Cell.IsFractional (c : Cell) : Prop :=
  ∃ x : Float, c = .number x ∧ x.isFinite = true ∧ Double.isIntegral x = false

theorem Cell.wholeTextBy_natural (n : Int) :
    wholeTextBy Double.naturalText n = wholeTextBy Double.canonicalText n := by
  unfold wholeTextBy
  split
  · rfl
  · next hlarge =>
    cases hn : Double.ofInt? n with
    | none => rfl
    | some x =>
      simp only
      rw [Double.canonicalText_of_ofInt? hn (Nat.le_of_not_lt hlarge)]

theorem Cell.toKeptText_eq_toText {c : Cell} (h : ¬ c.IsFractional) :
    c.toKeptText = c.toText := by
  cases c with
  | whole n => exact wholeTextBy_natural n
  | number x =>
    have hx : x.isFinite = true → Double.isIntegral x = true := fun hfinite =>
      Bool.of_not_eq_false fun hfraction => h ⟨x, rfl, hfinite, hfraction⟩
    rw [toKeptText, toText, Double.keptText_eq_canonicalText hx]
  | _ => rfl

namespace Formula

theorem runOnStack_field {lookup : Lookup} {name : String} {c : Cell} (h : lookup name = some c) :
    runOnStack lookup [.field name] =
      ⟨[name], (c.toText.map Value.text).mapError .unshowable⟩ := by
  simp [runOnStack, run, h, Run.after, finish, Except.bind]

theorem runSingle_field {lookup : Lookup} {name : String} {c : Cell} (h : lookup name = some c) :
    runSingle lookup (.field name) =
      ⟨[name], (c.toKeptText.map Value.text).mapError .unshowable⟩ := by
  simp [runSingle, h]

theorem runSingle_eq_runOnStack {lookup : Lookup} {t : Token}
    (hn : ∀ x, t = .number x → x.isFinite = true)
    (hc : ∀ name c, t = .field name → lookup name = some c → ¬ c.IsFractional) :
    runSingle lookup t = runOnStack lookup [t] := by
  cases t with
  | number x => simp [runSingle, runOnStack, run, finish, Except.bind, hn x rfl]
  | field name =>
    cases h : lookup name with
    | none => simp [runSingle, runOnStack, run, h, Except.bind]
    | some c =>
      rw [runSingle_field h, runOnStack_field h, Cell.toKeptText_eq_toText (hc name c rfl h)]
  | _ => rfl

/-- A formula of one token has the value that its token has on the stack, whatever its field holds
and whether or not it answers. Only a field with a fraction in it is shown in two ways: on its own
with the shortest text that reads back, on the stack with six places less the zeros at their end. -/
theorem evaluate_lone {raw : String} {f : Compiled} {t : Token} (hf : compile raw = .ok f)
    (ht : f.code = [t]) (lookup : Lookup) :
    ((∀ name c, t = .field name → lookup name = some c → ¬ c.IsFractional) →
        evaluate f lookup = runOnStack lookup f.code) ∧
      ∀ name x, t = .field name → lookup name = some (.number x) → x.isFinite = true →
        Double.isIntegral x = false →
        evaluate f lookup = ⟨[name], .ok (.text (String.ofList (Double.naturalText x)))⟩ ∧
          runOnStack lookup f.code =
            ⟨[name], .ok (.text (String.ofList (Double.dropPlaces (Double.placedText 6 x))))⟩ := by
  rw [evaluate, ht]
  constructor
  · intro hc
    refine runSingle_eq_runOnStack ?_ hc
    rintro x rfl
    exact compile_isFinite hf x (by simp [ht])
  · rintro name x rfl hx - hfraction
    have hkept : Cell.toKeptText (.number x) = .ok (String.ofList (Double.naturalText x)) := by
      rw [Cell.toKeptText, Double.keptText_of_not_isIntegral hfraction]
    have hplaced : Cell.toText (.number x) =
        .ok (String.ofList (Double.dropPlaces (Double.placedText 6 x))) := by
      rw [Cell.toText, Double.canonicalText, hfraction, if_neg Bool.false_ne_true]
    rw [runOnStack_field hx, hplaced]
    exact ⟨(runSingle_field hx).trans (by rw [hkept]; rfl), rfl⟩

theorem evaluate_lone_third :
    let raw := "\x7bA\x7d"
    let f : Compiled := ⟨raw, [.field "A"], ["A"]⟩
    let large : Lookup := fun _ => some (.whole (2 ^ 70))
    let third : Lookup := fun _ => some (.number (Float.ofBits 0x3FD5555555555555))
    compile raw = .ok f ∧ ¬ (Cell.whole (2 ^ 70)).IsFractional ∧
      evaluate f large = runOnStack large f.code ∧
      evaluate f third = ⟨["A"], .ok (.text "0.3333333333333333")⟩ ∧
      runOnStack third f.code = ⟨["A"], .ok (.text "0.333333")⟩ := by
  intro raw f large third
  have hf : compile raw = .ok f := by decide +kernel
  have hlarge : ¬ (Cell.whole (2 ^ 70)).IsFractional := by
    rintro ⟨x, hx, -⟩
    cases hx
  have hnatural : String.ofList (Double.naturalText (Float.ofBits 0x3FD5555555555555)) =
      "0.3333333333333333" := by decide +kernel
  have hplaced : String.ofList
      (Double.dropPlaces (Double.placedText 6 (Float.ofBits 0x3FD5555555555555))) =
        "0.333333" := by decide +kernel
  have hagree := (evaluate_lone hf rfl large).1 fun name c _ hc => by
    rw [← Option.some.inj hc]
    exact hlarge
  have hdiffer := (evaluate_lone hf rfl third).2 "A" _ rfl rfl (by decide +kernel)
    (by decide +kernel)
  rw [hnatural, hplaced] at hdiffer
  exact ⟨hf, hlarge, hagree, hdiffer⟩

end Formula
end FormulaTable
