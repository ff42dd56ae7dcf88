import FormulaTable.Proofs.Formula.Supply

/-!
# Number or text

Whether a sum adds or joins depends on where its operands come from and not on what they hold. So the
tokens alone give the kinds of the values on the stack, tell where a value is lacking, and say
whether the result is a number or a text. The fields decide only whether there is a result.
-/

namespace FormulaTable.Formula

inductive OperandKind
  | number
  | text
  | field
deriving DecidableEq, Repr

def Operand.kind : Operand → OperandKind
  | number _ => .number
  | text _ => .text
  | field _ => .field

def Operator.kindOn (op : Operator) (a b : OperandKind) : OperandKind :=
  if op = .add ∧ (a = .text ∨ b = .text) then .text else .number

/-- The kinds on the stack after the token; none where it lacks a value or is no known operator. -/
def Token.kindsAfter : Token → List OperandKind → Option (List OperandKind)
  | .number _, kinds => some (.number :: kinds)
  | .text _, kinds => some (.text :: kinds)
  | .field _, kinds => some (.field :: kinds)
  | .operator op, b :: a :: below => some (op.kindOn a b :: below)
  | .left, kinds | .right, kinds => some kinds
  | _, _ => none

def kindsAfter : List Token → List OperandKind → Option (List OperandKind)
  | [], kinds => some kinds
  | t :: rest, kinds => (t.kindsAfter kinds).bind (kindsAfter rest)

def resultKind? : List OperandKind → Option OutcomeKind
  | [.number] => some .number
  | [.text] | [.field] => some .text
  | _ => none

def kindOf? (code : List Token) : Option OutcomeKind := (kindsAfter code []).bind resultKind?

theorem Operand.kind_eq_text_iff {a : Operand} : a.kind = .text ↔ a.isText = true := by
  cases a <;> simp [kind, isText]

theorem toNumber_of_numberOf {a : Operand} {x : Float} (h : Tree.numberOf a = .ok x) :
    a.toNumber = .ok x := by
  rw [Tree.numberOf] at h
  cases hn : a.toNumber with
  | error cause =>
    rw [hn] at h
    cases h
  | ok y =>
    rw [hn] at h
    cases h
    rfl

theorem onNumbers_eq_ok {f : Float → Float → Float} {a b v : Operand}
    (h : (Operator.onNumbers f a b).mapError EvalError.unusableOperand = .ok v) :
    ∃ x y, a.toNumber = .ok x ∧ b.toNumber = .ok y ∧ v = .number (f x y) := by
  rw [onNumbers_mapError] at h
  obtain ⟨x, hx, h⟩ := bind_eq_ok h
  obtain ⟨y, hy, h⟩ := bind_eq_ok h
  cases h
  exact ⟨x, y, toNumber_of_numberOf hx, toNumber_of_numberOf hy, rfl⟩

theorem kind_of_onNumbers {f : Float → Float → Float} {a b v : Operand}
    (h : (Operator.onNumbers f a b).mapError EvalError.unusableOperand = .ok v) :
    v.kind = .number := by
  obtain ⟨x, y, -, -, rfl⟩ := onNumbers_eq_ok h
  rfl

theorem kind_of_concat {a b v : Operand}
    (h : (Operator.concat a b).mapError EvalError.unusableOperand = .ok v) : v.kind = .text := by
  rw [concat_mapError] at h
  obtain ⟨s, -, h⟩ := bind_eq_ok h
  obtain ⟨t, -, h⟩ := bind_eq_ok h
  cases h
  rfl

theorem Operator.kind_of_apply {op : Operator} {a b v : Operand} (h : op.apply a b = .ok v) :
    v.kind = op.kindOn a.kind b.kind := by
  cases op with
  | add =>
    simp only [kindOn, Operand.kind_eq_text_iff, true_and, ← Bool.or_eq_true]
    rw [apply] at h
    split at h
    · next htext => rw [kind_of_concat h, if_pos htext]
    · next htext => rw [kind_of_onNumbers h, if_neg htext]
  | sub => exact kind_of_onNumbers h
  | mul => exact kind_of_onNumbers h
  | div =>
    obtain ⟨x, y, -, -, -, rfl⟩ := div_eq_ok h
    rfl

section Runs
variable {lookup : Lookup} {t : Token} {code : List Token} {stack reached : List Operand}

theorem Step.kinds (h : Step lookup t stack reached) :
    t.kindsAfter (stack.map Operand.kind) = some (reached.map Operand.kind) := by
  cases h with
  | operator hop below =>
    simp only [List.map_cons, Operator.kind_of_apply hop]
    rfl
  | _ => rfl

theorem Token.kindsAfter_of_length {kinds : List OperandKind} (op : Operator)
    (h : kinds.length < 2) : (Token.operator op).kindsAfter kinds = none := by
  match kinds, h with
  | [], _ => rfl
  | [a], _ => rfl

def EvalError.OfFields (e : EvalError) : Prop :=
  e.kind ≠ .stackUnderflow ∧ e.kind ≠ .unexpectedChar

theorem EvalError.IsFailure.ofFields {e : EvalError} (h : e.IsFailure) : e.OfFields := by
  cases h <;> exact ⟨nofun, nofun⟩

theorem Stop.kinds {e : EvalError} (h : Stop lookup t stack e) :
    e.OfFields ∨ t.kindsAfter (stack.map Operand.kind) = none := by
  cases h with
  | unanswered _ _ => exact .inl (EvalError.IsFailure.lookup _).ofFields
  | short op hshort => exact .inr (Token.kindsAfter_of_length op (by simpa using hshort))
  | refused hop _ => exact .inl (Operator.isFailure_of_apply hop).ofFields
  | unknownShort _ _ => exact .inr rfl
  | unknown _ _ _ _ => exact .inr rfl

theorem kinds_of_run (h : (run lookup code stack).result = .ok reached) :
    kindsAfter code (stack.map Operand.kind) = some (reached.map Operand.kind) := by
  induction code generalizing stack with
  | nil =>
    cases h
    rfl
  | cons t code ih =>
    rcases run_cons_cases lookup t code stack with ⟨after, hstep, hr⟩ | ⟨e, -, hr⟩
    · rw [hr] at h
      rw [kindsAfter, hstep.kinds, Option.bind_some, ih h]
    · rw [hr] at h
      cases h

theorem kinds_of_run_error {e : EvalError} (h : (run lookup code stack).result = .error e) :
    e.OfFields ∨ kindsAfter code (stack.map Operand.kind) = none := by
  induction code generalizing stack with
  | nil => cases h
  | cons t code ih =>
    rcases run_cons_cases lookup t code stack with ⟨after, hstep, hr⟩ | ⟨e', hstop, hr⟩
    · rw [hr] at h
      rw [kindsAfter, hstep.kinds, Option.bind_some]
      exact ih h
    · rw [hr] at h
      cases h
      exact hstop.kinds.imp_right fun hkinds => by rw [kindsAfter, hkinds, Option.bind_none]

end Runs

def Value.kind : Value → OutcomeKind
  | number _ => .number
  | text _ => .text

section Results
variable {lookup : Lookup} {code : List Token} {stack : List Operand} {v : Value} {e : EvalError}

theorem showText_kind {r : Except CellError String}
    (h : (r.map Value.text).mapError EvalError.unshowable = .ok v) : v.kind = .text := by
  cases v with
  | number x => exact absurd h (showText_ne_number r x)
  | text s => rfl

theorem showText_ofFields {r : Except CellError String}
    (h : (r.map Value.text).mapError EvalError.unshowable = .error e) : e.OfFields := by
  cases r with
  | ok s => cases h
  | error cause =>
    cases h
    exact ⟨nofun, nofun⟩

theorem kind_of_finish (h : finish stack = .ok v) :
    resultKind? (stack.map Operand.kind) = some v.kind := by
  unfold finish at h
  split at h
  · split at h
    · cases h
      rfl
    · cases h
  · cases h
    rfl
  · rw [showText_kind h]
    rfl
  · cases h

theorem kind_of_finish_error (h : finish stack = .error e) :
    e.OfFields ∨ resultKind? (stack.map Operand.kind) = none := by
  match stack, h with
  | [], _ => exact .inr rfl
  | [.number x], h =>
    rw [finish] at h
    split at h
    · cases h
    · cases h
      exact .inl ⟨nofun, nofun⟩
  | [.field c], h => exact .inl (showText_ofFields h)
  | a :: b :: below, _ => right; cases a <;> rfl

theorem kind_of_runSingle {t : Token} (h : (runSingle lookup t).result = .ok v) :
    kindOf? [t] = some v.kind := by
  unfold runSingle at h
  split at h
  · cases h
    rfl
  · cases h
    rfl
  · split at h
    · rw [showText_kind h]
      rfl
    · cases h
  · cases h

theorem kind_of_runSingle_error {t : Token} (h : (runSingle lookup t).result = .error e) :
    e.OfFields ∨ kindOf? [t] = none := by
  cases t with
  | number x => cases h
  | text s => cases h
  | field name =>
    left
    cases hl : lookup name with
    | none =>
      simp only [runSingle, hl, Except.error.injEq] at h
      exact h ▸ (EvalError.IsFailure.lookup name).ofFields
    | some c =>
      simp only [runSingle, hl] at h
      exact showText_ofFields h
  | _ => exact .inr rfl

theorem kind_of_evaluateCode (h : (evaluateCode code lookup).result = .ok v) :
    kindOf? code = some v.kind := by
  rcases evaluateCode_cases lookup code with ⟨t, rfl, hr⟩ | hr
  · rw [hr] at h
    exact kind_of_runSingle h
  · rcases runOnStack_cases lookup code with ⟨e, -, hs⟩ | ⟨stack, hrun, hs⟩
    · rw [hr, hs] at h
      cases h
    · rw [hr, hs] at h
      have hkinds : kindsAfter code [] = some (stack.map Operand.kind) := kinds_of_run hrun
      rw [kindOf?, hkinds, Option.bind_some, kind_of_finish h]

theorem kind_of_evaluateCode_error (h : (evaluateCode code lookup).result = .error e) :
    e.OfFields ∨ kindOf? code = none := by
  rcases evaluateCode_cases lookup code with ⟨t, rfl, hr⟩ | hr
  · rw [hr] at h
    exact kind_of_runSingle_error h
  · rcases runOnStack_cases lookup code with ⟨e', hrun, hs⟩ | ⟨stack, hrun, hs⟩
    · rw [hr, hs] at h
      cases h
      have hkinds : e.OfFields ∨ kindsAfter code [] = none := kinds_of_run_error hrun
      exact hkinds.imp_right fun hnone => by rw [kindOf?, hnone, Option.bind_none]
    · rw [hr, hs] at h
      have hkinds : kindsAfter code [] = some (stack.map Operand.kind) := kinds_of_run hrun
      rw [kindOf?, hkinds, Option.bind_some]
      exact kind_of_finish_error h

end Results

/-- The run comes to a sum that joins, since a side of it is a text. -/
def Joins (lookup : Lookup) (code : List Token) : Prop :=
  ∃ before rest a b below, code = before ++ .operator .add :: rest ∧
    (run lookup before []).result = .ok (b :: a :: below) ∧ (a.isText || b.isText) = true

theorem Token.plain_kindsAfter {t : Token} {kinds after : List OperandKind}
    (ht : ∀ s, t ≠ .text s) (hk : .text ∉ kinds) (h : t.kindsAfter kinds = some after) :
    .text ∉ after ∧ (.number ∈ kinds ∨ (∃ op, t = .operator op) → .number ∈ after) := by
  unfold kindsAfter at h
  split at h
  · cases h
    simp [hk]
  · exact absurd rfl (ht _)
  · cases h
    simp [hk]
  · next op b a below =>
    cases h
    simp only [List.mem_cons, not_or] at hk
    have hnumber : op.kindOn a b = .number :=
      if_neg fun htext => htext.2.elim (fun ha => hk.2.1 ha.symm) fun hb => hk.1 hb.symm
    simp [hnumber, hk.2.2]
  · cases h
    simp [hk]
  · cases h
    simp [hk]
  · cases h

theorem plain_kindsAfter {code : List Token} {kinds after : List OperandKind}
    (ht : ∀ s, .text s ∉ code) (hk : .text ∉ kinds) (h : kindsAfter code kinds = some after) :
    .text ∉ after ∧ (.number ∈ kinds ∨ (∃ op, .operator op ∈ code) → .number ∈ after) := by
  induction code generalizing kinds with
  | nil =>
    cases h
    simp [hk]
  | cons t code ih =>
    obtain ⟨next, hnext, hrest⟩ := Option.bind_eq_some_iff.mp (by rwa [kindsAfter] at h)
    have hhead : ∀ s, t ≠ .text s := fun s he => ht s (he ▸ List.mem_cons_self)
    obtain ⟨htext, hnumber⟩ := Token.plain_kindsAfter hhead hk hnext
    obtain ⟨htext', hnumber'⟩ := ih (fun s hs => ht s (List.mem_cons_of_mem t hs)) htext hrest
    refine ⟨htext', fun hsome => hnumber' ?_⟩
    rcases hsome with hmem | ⟨op, hop⟩
    · exact .inl (hnumber (.inl hmem))
    · rcases List.mem_cons.mp hop with heq | hop
      · exact .inl (hnumber (.inr ⟨op, heq.symm⟩))
      · exact .inr ⟨op, hop⟩

theorem not_joins {code : List Token} (ht : ∀ s, .text s ∉ code) (lookup : Lookup) :
    ¬ Joins lookup code := by
  rintro ⟨before, rest, a, b, below, rfl, hrun, hjoin⟩
  have hbefore : ∀ s, .text s ∉ before := fun s hs => ht s (List.mem_append_left _ hs)
  have htext := (plain_kindsAfter hbefore List.not_mem_nil (kinds_of_run hrun)).1
  rw [Bool.or_eq_true, ← Operand.kind_eq_text_iff, ← Operand.kind_eq_text_iff] at hjoin
  rcases hjoin with ha | hb
  · exact htext (by simp [ha])
  · exact htext (by simp [hb])

theorem kindOf?_plain {code : List Token} (ht : ∀ s, .text s ∉ code)
    (hop : ∃ op, .operator op ∈ code) {kind : OutcomeKind} (h : kindOf? code = some kind) :
    kind = .number := by
  obtain ⟨kinds, hkinds, hresult⟩ := Option.bind_eq_some_iff.mp h
  have hnumber := (plain_kindsAfter ht List.not_mem_nil hkinds).2 (.inr hop)
  unfold resultKind? at hresult
  split at hresult
  · exact (Option.some.inj hresult).symm
  · simp at hnumber
  · simp at hnumber
  · cases hresult

theorem Outcome.kind_ofResult {r : Except EvalError Value}
    (h : (ofResult r).succeeded = true) : ∃ v, r = .ok v ∧ (ofResult r).kind = v.kind := by
  obtain ⟨v, rfl⟩ := succeeded_ofResult.mp h
  cases v with
  | number x => exact ⟨_, rfl, rfl⟩
  | text s => exact ⟨_, rfl, rfl⟩

theorem Outcome.errorKind_ofResult {r : Except EvalError Value} {k : FaultKind}
    (h : (ofResult r).errorKind = some k) : ∃ e, r = .error e ∧ e.kind = k := by
  rcases r with e | (x | s)
  · exact ⟨e, rfl, Option.some.inj h⟩
  · cases h
  · cases h

/-- The tokens fix the kind of the result: any two evaluations that succeed give the same kind, and
where one succeeds no other lacks a value or meets an unknown operator. Without texts among the
tokens no sum joins, whatever the fields hold, and the value of an operator is a number. -/
theorem evaluateCode_kind (code : List Token) :
    let outcome (lookup : Lookup) := Outcome.ofResult (evaluateCode code lookup).result
    (∀ first second, (outcome first).succeeded = true →
      ((outcome second).succeeded = true → (outcome second).kind = (outcome first).kind) ∧
        (outcome second).errorKind ≠ some .stackUnderflow ∧
        (outcome second).errorKind ≠ some .unexpectedChar) ∧
      ((∀ s, .text s ∉ code) → (∃ op, .operator op ∈ code) → ∀ lookup,
        ¬ Joins lookup code ∧
          ((outcome lookup).succeeded = true → (outcome lookup).kind = .number)) := by
  intro outcome
  have hkind (lookup : Lookup) (h : (outcome lookup).succeeded = true) :
      kindOf? code = some (outcome lookup).kind := by
    obtain ⟨v, hv, hk⟩ := Outcome.kind_ofResult h
    rw [hk]
    exact kind_of_evaluateCode hv
  have hfields (first second : Lookup) (h : (outcome first).succeeded = true) {k : FaultKind}
      (hk : (outcome second).errorKind = some k) : ∃ e : EvalError, e.OfFields ∧ e.kind = k := by
    obtain ⟨e, he, hk⟩ := Outcome.errorKind_ofResult hk
    refine ⟨e, (kind_of_evaluateCode_error he).resolve_right ?_, hk⟩
    rw [hkind first h]
    exact Option.some_ne_none _
  constructor
  · intro first second hfirst
    refine ⟨?_, ?_, ?_⟩
    · intro hsecond
      exact Option.some.inj ((hkind second hsecond).symm.trans (hkind first hfirst))
    · intro hshort
      obtain ⟨e, he, hk⟩ := hfields first second hfirst hshort
      exact he.1 hk
    · intro hunknown
      obtain ⟨e, he, hk⟩ := hfields first second hfirst hunknown
      exact he.2 hk
  · intro ht hop lookup
    exact ⟨not_joins ht lookup, fun h => kindOf?_plain ht hop (hkind lookup h)⟩

theorem evaluateCode_kind_words :
    let code : List Token := [.field "A", .field "B", .operator .add]
    let outcome (lookup : Lookup) := Outcome.ofResult (evaluateCode code lookup).result
    let numbers : Lookup := fun _ => some (.whole 2)
    let words : Lookup := fun name => some (.text name)
    (outcome numbers).succeeded = true ∧ (outcome words).succeeded = true ∧
      (outcome words).kind = (outcome numbers).kind ∧ (∀ s, .text s ∉ code) ∧
      .operator .add ∈ code ∧ ¬ Joins words code := by
  intro code outcome numbers words
  have hnumbers : (outcome numbers).succeeded = true := by decide +kernel
  have hwords : (outcome words).succeeded = true := by decide +kernel
  have ht : ∀ s, .text s ∉ code := by simp [code]
  have hop : .operator .add ∈ code := by simp [code]
  obtain ⟨hkinds, hplain⟩ := evaluateCode_kind code
  exact ⟨hnumbers, hwords, (hkinds numbers words hnumbers).1 hwords, ht, hop,
    (hplain ht ⟨_, hop⟩ words).1⟩

end FormulaTable.Formula
