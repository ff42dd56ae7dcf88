import FormulaTable.Proofs.Formula.Balance

/-!
# Which orders of tokens are accepted

Parentheses and operators wait on one stack, yet counting the parentheses is enough to tell where an
order of tokens is refused: at the first closing parenthesis without a partner or the first product
operator without an operand, and else at the end if a parenthesis is still open.
-/

namespace FormulaTable.Formula

/-- Nothing stands before, or at last an operator or an opening parenthesis. -/
def OperandDue (before : List Token) : Prop := ∀ t ∈ before.getLast?, t.opens = true

/-- `Refused before t e`: behind the tokens `before` the token `t` is refused with the error `e`. -/
inductive Refused (before : List Token) : Token → CompileError → Prop
  | closing (h : before.count .left = before.count .right) :
      Refused before .right .unmatchedParen
  | operator {op : Operator} (hs : (Token.operator op).isSign = false) (hd : OperandDue before) :
      Refused before (.operator op) (.unaryNotSupported (String.singleton op.symbol))

def RefusedAt (ts : List Token) (i : Nat) (e : CompileError) : Prop :=
  ∃ t, ts[i]? = some t ∧ Refused (ts.take i) t e

/-- The error of the leftmost refused token. -/
def FirstRefused (ts : List Token) (e : CompileError) : Prop :=
  ∃ i, RefusedAt ts i e ∧ ∀ j < i, ∀ e', ¬ RefusedAt ts j e'

theorem refusedAt_append {before rest : List Token} {i : Nat} (hi : i < before.length)
    (e : CompileError) : RefusedAt (before ++ rest) i e ↔ RefusedAt before i e := by
  unfold RefusedAt
  rw [List.getElem?_append_left hi, List.take_append_of_le_length hi.le]

theorem refusedAt_length (before : List Token) (t : Token) (rest : List Token)
    (e : CompileError) :
    RefusedAt (before ++ t :: rest) before.length e ↔ Refused before t e := by
  simp [RefusedAt]

theorem RefusedAt.lt_length {ts : List Token} {i : Nat} {e : CompileError}
    (h : RefusedAt ts i e) : i < ts.length := by
  obtain ⟨t, ht, -⟩ := h
  exact (List.getElem?_eq_some_iff.mp ht).1

/-- `Reached before waiting due`: the tokens `before` are accepted, and `waiting` is what waits then;
`due` tells whether an operand is due. -/
inductive Reached : List Token → List Pending → Bool → Prop
  | nil : Reached [] [] true
  | step {before : List Token} {waiting : List Pending} {due : Bool} {t : Token} {a : Advance}
      (h : Reached before waiting due) (ha : advance waiting due t = .ok a) :
      Reached (before ++ [t]) a.waiting a.operandDue

theorem Moves.depthOf_eq {waiting : List Pending} {due : Bool} {t : Token} {a : Advance}
    (h : Moves waiting due t a) :
    depthOf a.waiting + [t].count .right = depthOf waiting + [t].count .left := by
  cases h with
  | operand h => cases h <;> simp
  | left => simp [depthOf]
  | right hw =>
    rw [hw, depthOf_operators]
    simp [depthOf]
  | sign _ _ hw =>
    rw [hw, depthOf_operators]
    simp [depthOf]
  | operator _ hw =>
    rw [hw, depthOf_operators]
    simp [depthOf]

section Reached
variable {before : List Token} {waiting : List Pending} {due : Bool}

theorem Reached.depthOf_eq (h : Reached before waiting due) :
    depthOf waiting + before.count .right = before.count .left := by
  induction h with
  | nil => rfl
  | step _ ha ih =>
    have hstep := (moves_of_advance ha).depthOf_eq
    rw [List.count_append, List.count_append]
    omega

theorem Reached.operandDue_iff (h : Reached before waiting due) :
    due = true ↔ OperandDue before := by
  cases h with
  | nil => simp [OperandDue]
  | step _ ha => simp [OperandDue, (moves_of_advance ha).operandDue]

theorem Reached.postfixOf_append (h : Reached before waiting due) :
    ∃ out, ∀ rest, postfixOf (before ++ rest) = emit out (reorder waiting due rest) := by
  induction h with
  | nil => exact ⟨[], fun rest => (emit_nil _).symm⟩
  | @step before waiting due t a _ ha ih =>
    obtain ⟨out, hout⟩ := ih
    refine ⟨out ++ a.out, fun rest => ?_⟩
    rw [List.append_assoc, List.singleton_append, hout, reorder_cons, ha]
    exact emit_emit out a.out _

theorem releaseParen_eq_error {e : CompileError} :
    releaseParen waiting = .error e ↔ depthOf waiting = 0 ∧ e = .unmatchedParen := by
  induction waiting with
  | nil => simp [releaseParen, depthOf, eq_comm]
  | cons p waiting ih =>
    cases p with
    | paren => simp [releaseParen, depthOf]
    | operator op => simpa [releaseParen, depthOf, map_eq_error_iff] using ih

theorem releaseAll_eq_error {e : CompileError} :
    releaseAll waiting = .error e ↔ depthOf waiting ≠ 0 ∧ e = .unmatchedParen := by
  induction waiting with
  | nil => simp [releaseAll, depthOf]
  | cons p waiting ih =>
    cases p with
    | paren => simp [releaseAll, depthOf, eq_comm]
    | operator op => simpa [releaseAll, depthOf, map_eq_error_iff] using ih

theorem Reached.advance_eq_error {t : Token} (h : Reached before waiting due) (ht : t.IsKnown)
    {e : CompileError} : advance waiting due t = .error e ↔ Refused before t e := by
  have hdepth := h.depthOf_eq
  cases t with
  | right =>
    rw [advance, map_eq_error_iff, releaseParen_eq_error]
    constructor
    · rintro ⟨hzero, rfl⟩
      exact .closing (by omega)
    · rintro ⟨hcount⟩
      exact ⟨by omega, rfl⟩
  | operator op =>
    rw [advance]
    split
    · next hrefused =>
      obtain ⟨hdue, hsign⟩ := hrefused
      have hproduct : (Token.operator op).isSign = false := by
        simpa [Token.isSign_operator] using hsign
      constructor
      · intro he
        cases he
        exact .operator hproduct (h.operandDue_iff.mp hdue)
      · rintro ⟨-, -⟩
        rfl
    · next haccepted =>
      constructor
      · intro he
        cases he
      · intro he
        cases he with
        | operator hproduct hdue =>
          exact absurd ⟨h.operandDue_iff.mpr hdue, by simp [← Token.isSign_operator, hproduct]⟩ haccepted
  | unknown symbol => exact absurd rfl (ht symbol)
  | _ => constructor <;> intro he <;> cases he

end Reached

theorem exists_reached {ts : List Token} (hk : ∀ t ∈ ts, t.IsKnown)
    (hn : ∀ i e, ¬ RefusedAt ts i e) : ∃ waiting due, Reached ts waiting due := by
  induction ts using List.reverseRecOn with
  | nil => exact ⟨[], true, .nil⟩
  | append_singleton before t ih =>
    obtain ⟨hbefore, ht⟩ := List.forall_mem_append.mp hk
    have hnone : ∀ i e, ¬ RefusedAt before i e := fun i e he =>
      hn i e ((refusedAt_append he.lt_length e).mpr he)
    obtain ⟨waiting, due, h⟩ := ih hbefore hnone
    cases ha : advance waiting due t with
    | ok a => exact ⟨a.waiting, a.operandDue, .step h ha⟩
    | error e =>
      have hrefused := (h.advance_eq_error (ht t (List.mem_singleton_self t))).mp ha
      exact absurd ((refusedAt_length before t [] e).mpr hrefused) (hn before.length e)

theorem postfixOf_of_firstRefused {ts : List Token} (hk : ∀ t ∈ ts, t.IsKnown) {e : CompileError}
    (h : FirstRefused ts e) : postfixOf ts = .error e := by
  obtain ⟨i, hat, hfirst⟩ := h
  have hi := hat.lt_length
  obtain ⟨before, t, rest, rfl, rfl⟩ :
      ∃ before t rest, ts = before ++ t :: rest ∧ i = before.length :=
    ⟨ts.take i, ts[i], ts.drop (i + 1), by simp, by simp [hi.le]⟩
  obtain ⟨hbefore, hrest⟩ := List.forall_mem_append.mp hk
  have hnone : ∀ j e', ¬ RefusedAt before j e' := fun j e' he =>
    hfirst j he.lt_length e' ((refusedAt_append he.lt_length e').mpr he)
  obtain ⟨waiting, due, hreached⟩ := exists_reached hbefore hnone
  obtain ⟨out, hout⟩ := hreached.postfixOf_append
  have ha : advance waiting due t = .error e :=
    (hreached.advance_eq_error (hrest t List.mem_cons_self)).mpr
      ((refusedAt_length before t rest e).mp hat)
  rw [hout, reorder_cons, ha]
  rfl

theorem postfixOf_of_none_refused {ts : List Token} (hk : ∀ t ∈ ts, t.IsKnown)
    (hn : ∀ i e, ¬ RefusedAt ts i e) (e : CompileError) :
    postfixOf ts = .error e ↔ ts.count .right < ts.count .left ∧ e = .unmatchedParen := by
  obtain ⟨waiting, due, hreached⟩ := exists_reached hk hn
  obtain ⟨out, hout⟩ := hreached.postfixOf_append
  have hdepth := hreached.depthOf_eq
  have hend := hout []
  rw [List.append_nil, reorder] at hend
  rw [hend, emit, map_eq_error_iff, releaseAll_eq_error]
  have hopen : depthOf waiting ≠ 0 ↔ ts.count .right < ts.count .left := by omega
  rw [hopen]

theorem exists_firstRefused {ts : List Token} {i : Nat} {e : CompileError}
    (h : RefusedAt ts i e) : ∃ e', FirstRefused ts e' := by
  classical
  have hsome : ∃ i e, RefusedAt ts i e := ⟨i, e, h⟩
  obtain ⟨e', he'⟩ := Nat.find_spec hsome
  exact ⟨e', Nat.find hsome, he', fun j hj e'' he'' => Nat.find_min hsome hj ⟨e'', he''⟩⟩

def compileFaults : List FaultKind :=
  [.emptyFormula, .unexpectedChar, .unmatchedBrace, .emptyField, .unmatchedParen,
    .numberOutOfRange, .unaryNotSupported, .unterminatedText]

theorem CompileError.kind?_mem {e : CompileError} {k : FaultKind} (h : e.kind? = some k) :
    k ∈ compileFaults := by
  cases e <;> cases h <;> decide

/-- Reordering fails with the error of the leftmost refused token or, where none is refused, for a
parenthesis that is still open at the end. It fails in no other way, so that a text compiles or has
one of the faults of a text. -/
theorem postfixOf_accepts {ts : List Token} (hk : ∀ t ∈ ts, t.IsKnown) :
    (∀ e, postfixOf ts = .error e ↔ FirstRefused ts e ∨ (∀ i e', ¬ RefusedAt ts i e') ∧
      ts.count .right < ts.count .left ∧ e = .unmatchedParen) ∧
    ((∃ code, postfixOf ts = .ok code) ↔
      (∀ i e, ¬ RefusedAt ts i e) ∧ ts.count .left ≤ ts.count .right) ∧
    ∀ raw, (∃ f, compile raw = .ok f) ∨
      ∃ e, compile raw = .error e ∧ ∃ k ∈ compileFaults, e.kind? = some k := by
  have hrefused {i : Nat} {e : CompileError} (h : RefusedAt ts i e) :
      ∃ e', FirstRefused ts e' ∧ postfixOf ts = .error e' := by
    obtain ⟨e', hfirst⟩ := exists_firstRefused h
    exact ⟨e', hfirst, postfixOf_of_firstRefused hk hfirst⟩
  refine ⟨fun e => ⟨fun herror => ?_, ?_⟩, ⟨?_, ?_⟩, fun raw => ?_⟩
  · by_cases hn : ∀ i e', ¬ RefusedAt ts i e'
    · exact .inr ⟨hn, (postfixOf_of_none_refused hk hn e).mp herror⟩
    · push Not at hn
      obtain ⟨i, e', hat⟩ := hn
      obtain ⟨first, hfirst, herror'⟩ := hrefused hat
      cases herror.symm.trans herror'
      exact .inl hfirst
  · rintro (hfirst | ⟨hn, hopen⟩)
    · exact postfixOf_of_firstRefused hk hfirst
    · exact (postfixOf_of_none_refused hk hn e).mpr hopen
  · rintro ⟨code, hcode⟩
    have hn : ∀ i e, ¬ RefusedAt ts i e := by
      intro i e hat
      obtain ⟨e', -, herror⟩ := hrefused hat
      cases hcode.symm.trans herror
    refine ⟨hn, Nat.le_of_not_lt fun hopen => ?_⟩
    have herror := (postfixOf_of_none_refused hk hn .unmatchedParen).mpr ⟨hopen, rfl⟩
    cases hcode.symm.trans herror
  · rintro ⟨hn, hclosed⟩
    cases hcode : postfixOf ts with
    | ok code => exact ⟨code, rfl⟩
    | error e =>
      have hopen := ((postfixOf_of_none_refused hk hn e).mp hcode).1
      omega
  · cases hf : compile raw with
    | ok f => exact .inl ⟨f, rfl⟩
    | error e =>
      obtain ⟨k, hkind⟩ := compile_error hf
      exact .inr ⟨e, rfl, k, e.kind?_mem hkind, hkind⟩

theorem postfixOf_accepts_product :
    let ts : List Token := [.number 1, .operator .add, .operator .mul, .right]
    (∀ t ∈ ts, t.IsKnown) ∧ RefusedAt ts 3 .unmatchedParen ∧
      FirstRefused ts (.unaryNotSupported "*") ∧
      postfixOf ts = .error (.unaryNotSupported "*") := by
  intro ts
  have hk : ∀ t ∈ ts, t.IsKnown := by simp [ts, Token.IsKnown]
  have hclosing : RefusedAt ts 3 .unmatchedParen := ⟨.right, rfl, .closing (by decide +kernel)⟩
  have hfirst : FirstRefused ts (.unaryNotSupported "*") := by
    refine ⟨2, ⟨.operator .mul, rfl, .operator rfl (by simp [OperandDue, ts, Token.opens])⟩, ?_⟩
    rintro (_ | _ | j) hj e' ⟨t, ht, hrefused⟩
    · cases ht
      cases hrefused
    · cases ht
      cases hrefused with
      | operator hs _ => cases hs
    · omega
  exact ⟨hk, hclosing, hfirst, ((postfixOf_accepts hk).1 _).mpr (.inl hfirst)⟩

end FormulaTable.Formula
