import FormulaTable.Proofs.Formula.Grammar
import FormulaTable.Proofs.Formula.Steps

/-!
# What an evaluation comes to

Any list of tokens, run on any fields, ends in a number, in a text or in one of the faults of a
run, and the outcome's parts agree with each other. On the way no number is divided by zero, and
what is taken for a number from a field or a text is finite.
-/

namespace FormulaTable

theorem Cell.isFinite_orZero (x : Float) : (orZero x).isFinite = true := by
  unfold orZero
  split
  · assumption
  · decide

theorem Cell.isFinite_numberOfText (s : String) : (numberOfText s).isFinite = true := by
  unfold numberOfText
  cases Double.read? (Text.trimList s.toList) with
  | none => decide
  | some x => exact isFinite_orZero x

theorem Cell.isFinite_toNumber {c : Cell} {x : Float} (h : c.toNumber = .ok x) :
    x.isFinite = true := by
  have hshown {c : Cell} (h : (do let s ← fullText c; Except.ok (numberOfText s)) = .ok x) :
      x.isFinite = true := by
    cases hs : fullText c with
    | error e =>
      rw [hs] at h
      cases h
    | ok s =>
      rw [hs] at h
      cases h
      exact isFinite_numberOfText s
  cases c with
  | empty =>
    cases h
    decide
  | whole n =>
    cases h
    cases hn : Double.ofInt? n with
    | none => decide
    | some y => exact Double.isFinite_ofInt? hn
  | number y =>
    cases h
    exact isFinite_orZero y
  | flag b => exact hshown h
  | text s => exact hshown h
  | list items => exact hshown h
  | mapping entries => exact hshown h
  | other shown => exact hshown h
  | mute => exact hshown h

namespace Formula

theorem beq_zero_of_not_abs_lt {y : Float} (h : ¬ y.abs < leastDivisor) : (y == 0) = false := by
  cases hy : y == 0 with
  | false => rfl
  | true =>
    rw [Double.abs_of_beq_zero hy] at h
    exact absurd (by decide) h

theorem Operator.divide_cases (a b : Operand) :
    (∃ cause, divide a b = .error (.unusableOperand cause)) ∨
      divide a b = .error .divisionByZero ∨
      ∃ x y, a.toNumber = .ok x ∧ b.toNumber = .ok y ∧ (y == 0) = false ∧
        divide a b = .ok (.number (x / y)) := by
  unfold divide
  cases hb : b.toNumber with
  | error cause => exact .inl ⟨cause, rfl⟩
  | ok y =>
    by_cases hy : y.abs < leastDivisor
    · exact .inr (.inl (by simp [hy, Except.mapError, bind, Except.bind]))
    · cases ha : a.toNumber with
      | error cause => exact .inl ⟨cause, by simp [hy, Except.mapError, bind, Except.bind]⟩
      | ok x =>
        have hzero := beq_zero_of_not_abs_lt hy
        exact .inr (.inr ⟨x, y, rfl, rfl, hzero, by simp [hy, Except.mapError, bind, Except.bind]⟩)

theorem Operator.div_eq_ok {a b v : Operand} (h : div.apply a b = .ok v) :
    ∃ x y, a.toNumber = .ok x ∧ b.toNumber = .ok y ∧ (y == 0) = false ∧ v = .number (x / y) := by
  have hdivide : divide a b = .ok v := h
  rcases divide_cases a b with ⟨cause, he⟩ | he | ⟨x, y, hx, hy, hzero, hv⟩
  · rw [he] at hdivide
    cases hdivide
  · rw [he] at hdivide
    cases hdivide
  · rw [hv] at hdivide
    cases hdivide
    exact ⟨x, y, hx, hy, hzero, rfl⟩

def runFaults : List FaultKind :=
  [.stackUnderflow, .divisionByZero, .notFinite, .lookupFailed, .unusableValue]

example : runFaults.map FaultKind.code =
    ["STACK_UNDERFLOW", "DIVIDE_BY_ZERO", "NON_FINITE_RESULT", "FIELD_LOOKUP_FAILED",
      "INVALID_FIELD_VALUE"] := rfl

/-- An error that the tokens can give: a fault of a run, or an unknown operator among them. -/
def EvalError.Of (code : List Token) (e : EvalError) : Prop :=
  e.kind ∈ runFaults ∨ ∃ symbol, e = .unknownOperator symbol ∧ .unknown symbol ∈ code

theorem mapError_unusable {α : Type} {r : Except CellError α} {e : EvalError}
    (h : r.mapError .unusableOperand = .error e) : e.kind ∈ runFaults := by
  cases r with
  | ok a => cases h
  | error cause =>
    cases h
    simp [EvalError.kind, runFaults]

theorem Operator.apply_error {op : Operator} {a b : Operand} {e : EvalError}
    (h : op.apply a b = .error e) : e.kind ∈ runFaults := by
  cases op with
  | add => exact mapError_unusable h
  | sub => exact mapError_unusable h
  | mul => exact mapError_unusable h
  | div =>
    have hdivide : divide a b = .error e := h
    rcases divide_cases a b with ⟨cause, he⟩ | he | ⟨x, y, -, -, -, hv⟩
    · rw [he] at hdivide
      cases hdivide
      simp [EvalError.kind, runFaults]
    · rw [he] at hdivide
      cases hdivide
      simp [EvalError.kind, runFaults]
    · rw [hv] at hdivide
      cases hdivide

theorem run_error {lookup : Lookup} {code : List Token} {stack : List Operand} {e : EvalError}
    (h : (run lookup code stack).result = .error e) : e.Of code := by
  obtain ⟨t, ht, reached, hstop⟩ := exists_stop h
  cases hstop with
  | unanswered _ _ => exact .inl (by simp [EvalError.kind, runFaults])
  | short _ _ => exact .inl (by simp [EvalError.kind, runFaults])
  | refused hop _ => exact .inl (Operator.apply_error hop)
  | unknownShort _ _ => exact .inl (by simp [EvalError.kind, runFaults])
  | unknown symbol a b below => exact .inr ⟨symbol, rfl, ht⟩

theorem showText_error {r : Except CellError String} {e : EvalError}
    (h : (r.map Value.text).mapError .unshowable = .error e) : e.kind ∈ runFaults := by
  cases r with
  | ok s => cases h
  | error cause =>
    cases h
    simp [EvalError.kind, runFaults]

theorem showText_ne_number (r : Except CellError String) (x : Float) :
    (r.map Value.text).mapError EvalError.unshowable ≠ .ok (.number x) := by
  intro h
  cases r <;> cases h

theorem finish_error {stack : List Operand} {e : EvalError} (h : finish stack = .error e) :
    e.kind ∈ runFaults := by
  unfold finish at h
  split at h
  · split at h
    · cases h
    · cases h
      simp [EvalError.kind, runFaults]
  · cases h
  · exact showText_error h
  · cases h
    simp [EvalError.kind, runFaults]

theorem finish_isFinite {stack : List Operand} {x : Float} (h : finish stack = .ok (.number x)) :
    x.isFinite = true := by
  unfold finish at h
  split at h
  · split at h
    · next hx =>
      cases h
      exact hx
    · cases h
  · cases h
  · exact absurd h (showText_ne_number _ x)
  · cases h

theorem runSingle_error {lookup : Lookup} {t : Token} {e : EvalError}
    (h : (runSingle lookup t).result = .error e) : e.kind ∈ runFaults := by
  unfold runSingle at h
  split at h
  · cases h
  · cases h
  · split at h
    · exact showText_error h
    · cases h
      simp [EvalError.kind, runFaults]
  · cases h
    simp [EvalError.kind, runFaults]

theorem runSingle_number {lookup : Lookup} {t : Token} {x : Float}
    (h : (runSingle lookup t).result = .ok (.number x)) : t = .number x := by
  unfold runSingle at h
  split at h
  · cases h
    rfl
  · cases h
  · split at h
    · exact absurd h (showText_ne_number _ x)
    · cases h
  · cases h

theorem evaluateCode_error {lookup : Lookup} {code : List Token} {e : EvalError}
    (h : (evaluateCode code lookup).result = .error e) : e.Of code := by
  rcases evaluateCode_cases lookup code with ⟨t, -, hr⟩ | hr
  · rw [hr] at h
    exact .inl (runSingle_error h)
  · rcases runOnStack_cases lookup code with ⟨e', he, hs⟩ | ⟨stack, -, hs⟩
    · rw [hr, hs] at h
      cases h
      exact run_error he
    · rw [hr, hs] at h
      exact .inl (finish_error h)

theorem evaluateCode_isFinite {lookup : Lookup} {code : List Token}
    (hc : ∀ x, Token.number x ∈ code → x.isFinite = true) {x : Float}
    (h : (evaluateCode code lookup).result = .ok (.number x)) : x.isFinite = true := by
  rcases evaluateCode_cases lookup code with ⟨t, rfl, hr⟩ | hr
  · rw [hr] at h
    exact hc x (by simp [runSingle_number h])
  · rcases runOnStack_cases lookup code with ⟨e, -, hs⟩ | ⟨stack, -, hs⟩
    · rw [hr, hs] at h
      cases h
    · rw [hr, hs] at h
      exact finish_isFinite h

theorem Lexed.isFinite {ts : List Token} {s : List Char} (h : Lexed ts s) :
    ∀ x, Token.number x ∈ ts → x.isFinite = true := by
  induction h with
  | nil =>
    intro x hx
    cases hx
  | gap _ _ ih => exact ih
  | lexeme hw _ _ ih =>
    intro x hx
    rcases List.mem_cons.mp hx with rfl | hx
    · cases hw with
      | number l h => exact h
    · exact ih x hx

theorem compile_isFinite {raw : String} {f : Compiled} (h : compile raw = .ok f) :
    ∀ x, Token.number x ∈ f.code → x.isFinite = true := by
  obtain ⟨ts, hts, hcode, -, -⟩ := compile_eq_ok h
  intro x hx
  rcases mem_reorder hcode _ hx with hx | hzero | ⟨op, hop⟩
  · exact (lexed_of_tokens hts).isFinite x hx
  · cases hzero
    decide
  · cases hop

theorem evaluate_isFinite {raw : String} {f : Compiled} (h : compile raw = .ok f)
    {lookup : Lookup} {x : Float} (hx : (evaluate f lookup).result = .ok (.number x)) :
    x.isFinite = true :=
  evaluateCode_isFinite (compile_isFinite h) hx

/-- The parts of an outcome agree: a finite number with its canonical text, a text, or a fault that
the tokens can give. Only an operator that is none of the four gives an unexpected character. -/
inductive Outcome.Coherent (code : List Token) : Outcome → Prop
  | number {x : Float} (hx : x.isFinite = true) :
      Coherent code ⟨String.ofList (Double.canonicalText x), .number, some x, none, none⟩
  | text (s : String) : Coherent code ⟨s, .text, none, none, none⟩
  | fault {kind : FaultKind}
      (hk : kind ∈ runFaults ∨
        kind = .unexpectedChar ∧ ∃ symbol, Token.unknown symbol ∈ code) :
      Coherent code ⟨errorMarker, .text, none, some kind.message, some kind⟩

theorem coherent_ofResult {code : List Token} {r : Except EvalError Value}
    (hn : ∀ x, r = .ok (.number x) → x.isFinite = true)
    (he : ∀ e, r = .error e → e.Of code) : (Outcome.ofResult r).Coherent code := by
  match r with
  | .ok (.number x) => exact .number (hn x rfl)
  | .ok (.text s) => exact .text s
  | .error e =>
    rcases he e rfl with hk | ⟨symbol, rfl, hm⟩
    · exact .fault (.inl hk)
    · exact .fault (.inr ⟨rfl, symbol, hm⟩)

end Formula
end FormulaTable
