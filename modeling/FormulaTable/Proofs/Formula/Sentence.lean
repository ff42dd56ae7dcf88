import FormulaTable.Proofs.Formula.Coherence

/-!
# Sentences

The infix grammar of formulas, where signs may stand before an operand or a group. With a zero put
before each sign a sentence is the writing of one tree, in which signs are operators like the
others, and reordering gives this tree's postorder.
-/

namespace FormulaTable.Formula

def Token.isSign : Token → Bool
  | .operator .add | .operator .sub => true
  | _ => false

theorem Token.isSign_operator (op : Operator) : (Token.operator op).isSign = op.isSign := by
  cases op <;> rfl

inductive Part
  | primary
  | term
  | sentence

/-- `Phrase p ts`: the tokens `ts` make up a part of the kind `p`. -/
inductive Phrase : Part → List Token → Prop
  | operand {e : Tree} {t : Token} (h : e.Leaf t) : Phrase .primary [t]
  | group {ts : List Token} (h : Phrase .sentence ts) : Phrase .primary (.left :: ts ++ [.right])
  | unsigned {ts : List Token} (h : Phrase .primary ts) : Phrase .term ts
  | signed {op : Operator} {ts : List Token} (hs : (Token.operator op).isSign = true)
      (h : Phrase .term ts) : Phrase .term (.operator op :: ts)
  | single {ts : List Token} (h : Phrase .term ts) : Phrase .sentence ts
  | joined {op : Operator} {ls rs : List Token} (hl : Phrase .sentence ls)
      (hr : Phrase .term rs) : Phrase .sentence (ls ++ .operator op :: rs)

def Token.opens : Token → Bool
  | .operator _ | .unknown _ | .left => true
  | _ => false

/-- The tokens with a zero before each sign that stands first, after an operator or after an opening
parenthesis; `operandDue` tells whether the list begins at such a place. -/
def withZeros (operandDue : Bool) : List Token → List Token
  | [] => []
  | t :: rest =>
    (if operandDue && t.isSign then [.number 0] else []) ++ t :: withZeros t.opens rest

theorem withZeros_of_not_sign {t : Token} (h : t.isSign = false) (operandDue : Bool)
    (rest : List Token) : withZeros operandDue (t :: rest) = t :: withZeros t.opens rest := by
  simp [withZeros, h]

theorem withZeros_left (operandDue : Bool) (rest : List Token) :
    withZeros operandDue (.left :: rest) = .left :: withZeros true rest :=
  withZeros_of_not_sign rfl operandDue rest

theorem withZeros_right (operandDue : Bool) (rest : List Token) :
    withZeros operandDue (.right :: rest) = .right :: withZeros false rest :=
  withZeros_of_not_sign rfl operandDue rest

theorem withZeros_sign {op : Operator} (hs : (Token.operator op).isSign = true)
    (rest : List Token) :
    withZeros true (.operator op :: rest) = .number 0 :: .operator op :: withZeros true rest := by
  simp [withZeros, Token.opens, hs]

theorem withZeros_operator (op : Operator) (rest : List Token) :
    withZeros false (.operator op :: rest) = .operator op :: withZeros true rest := rfl

theorem Tree.Leaf.opens {e : Tree} {t : Token} (h : e.Leaf t) : t.opens = false := by
  cases h <;> rfl

theorem Moves.operandDue {waiting : List Pending} {due : Bool} {t : Token} {a : Advance}
    (h : Moves waiting due t a) : a.operandDue = t.opens := by
  cases h with
  | operand h => exact h.opens.symm
  | _ => rfl

theorem reorder_sign {op : Operator} (hs : (Token.operator op).isSign = true)
    (waiting : List Pending) (rest : List Token) :
    reorder waiting true (.operator op :: rest) =
      reorder waiting true (.number 0 :: .operator op :: rest) := by
  have hsign : ¬ (true = true ∧ (!op.isSign) = true) := by simp [← Token.isSign_operator, hs]
  rw [reorder_leaf (.number 0), reorder_between, reorder_cons, advance, if_neg hsign]
  exact (emit_emit [.number 0] _ _).symm

/-- The zeros are those that reordering puts before signs itself. -/
theorem reorder_withZeros (waiting : List Pending) (operandDue : Bool) (ts : List Token) :
    reorder waiting operandDue (withZeros operandDue ts) = reorder waiting operandDue ts := by
  induction ts generalizing waiting operandDue with
  | nil => rfl
  | cons t ts ih =>
    have htail : reorder waiting operandDue (t :: withZeros t.opens ts) =
        reorder waiting operandDue (t :: ts) := by
      rw [reorder_cons, reorder_cons]
      cases ha : advance waiting operandDue t with
      | error e => rfl
      | ok a =>
        rw [← (moves_of_advance ha).operandDue]
        exact congrArg (emit a.out) (ih a.waiting a.operandDue)
    cases hs : t.isSign with
    | false => rw [withZeros_of_not_sign hs, htail]
    | true =>
      cases operandDue with
      | false => exact htail
      | true =>
        cases t with
        | operator op =>
          rw [withZeros_sign hs, ← reorder_sign hs]
          exact htail
        | _ => cases hs

theorem postfixOf_withZeros (ts : List Token) : postfixOf (withZeros true ts) = postfixOf ts :=
  reorder_withZeros [] true ts

theorem Operator.precedence_eq_one_or_two (op : Operator) :
    op.precedence = 1 ∨ op.precedence = 2 := by
  cases op <;> simp [precedence]

theorem Tree.Written.mono {least loosest : Nat} {e : Tree} {ts : List Token}
    (h : e.Written least ts) (hl : loosest ≤ least) : e.Written loosest ts := by
  cases h with
  | leaf h => exact .leaf h
  | paren h => exact .paren h
  | sum hop hp hl' hr => exact .sum hop (Nat.le_trans hl hp) hl' hr
  | product hop hp hl' hr => exact .product hop (Nat.le_trans hl hp) hl' hr

def Tight (ts : List Token) : Prop := ∃ e : Tree, ∀ least, e.Written least ts

inductive Chain : List Token → Prop
  | product {e : Tree} {ts : List Token} (h : e.Written 2 ts) : Chain ts
  | sum {op : Operator} {l r : Tree} {ls rs : List Token} (hp : op.precedence = 1)
      (hl : l.Written 1 ls) (hr : r.Written 2 rs) : Chain (ls ++ .operator op :: rs)

theorem Chain.exists_written {ts : List Token} (h : Chain ts) : ∃ e : Tree, e.Written 1 ts := by
  cases h with
  | product h => exact ⟨_, h.mono (by omega)⟩
  | @sum op l r ls rs hp hl hr =>
    have hr' : r.Written (op.precedence + 1) rs := by rwa [hp]
    exact ⟨.binary op l r, .binary (by omega) (hp ▸ hl) hr'⟩

theorem Tight.chain {ts : List Token} (h : Tight ts) : Chain ts := by
  obtain ⟨e, he⟩ := h
  exact .product (he 2)

theorem Chain.append {ts us : List Token} (h : Chain ts) (op : Operator) (hu : Tight us) :
    Chain (ts ++ .operator op :: us) := by
  obtain ⟨q, hq⟩ := hu
  rcases op.precedence_eq_one_or_two with hp | hp
  · obtain ⟨e, he⟩ := h.exists_written
    exact .sum hp he (hq 2)
  · cases h with
    | product h => exact .product (.binary (by omega) (hp ▸ h) (hq _))
    | @sum op' l r ls rs hp' hl hr =>
      have hfactor : (Tree.binary op r q).Written 2 (rs ++ .operator op :: us) :=
        .binary (by omega) (hp ▸ hr) (hq _)
      simpa using Chain.sum hp' hl hfactor

def Part.Parses : Part → List Token → Prop
  | primary, ts => Tight ts
  | term, ts => Chain ts ∧ ∀ us op, Chain us → Chain (us ++ .operator op :: ts)
  | sentence, ts => Chain ts

theorem Phrase.exists_zeros {p : Part} {ts : List Token} (h : Phrase p ts) :
    ∃ zs, p.Parses zs ∧ ∀ rest, withZeros true (ts ++ rest) = zs ++ withZeros false rest := by
  induction h with
  | @operand e t h =>
    refine ⟨[t], ⟨e, fun least => .leaf h⟩, fun rest => ?_⟩
    cases h <;> rfl
  | @group ts _ ih =>
    obtain ⟨zs, hzs, hrest⟩ := ih
    obtain ⟨e, he⟩ := Chain.exists_written hzs
    refine ⟨.left :: zs ++ [.right], ⟨e, fun least => .paren (he.mono (Nat.zero_le 1))⟩, ?_⟩
    intro rest
    calc withZeros true (.left :: ts ++ [.right] ++ rest)
        = .left :: withZeros true (ts ++ .right :: rest) := by
          rw [List.append_assoc, List.cons_append, withZeros_left, List.singleton_append]
      _ = .left :: zs ++ [.right] ++ withZeros false rest := by
          rw [hrest, withZeros_right]
          simp
  | unsigned _ ih =>
    obtain ⟨zs, hzs, hrest⟩ := ih
    exact ⟨zs, ⟨hzs.chain, fun us op hu => hu.append op hzs⟩, hrest⟩
  | @signed op ts hs _ ih =>
    obtain ⟨zs, ⟨-, hbehind⟩, hrest⟩ := ih
    have hzero : Tight [.number 0] := ⟨.number 0, fun least => .leaf (.number 0)⟩
    refine ⟨.number 0 :: .operator op :: zs, ⟨hbehind _ op hzero.chain, ?_⟩, ?_⟩
    · intro us op' hu
      simpa using hbehind _ op (hu.append op' hzero)
    · intro rest
      rw [List.cons_append, withZeros_sign hs, hrest]
      rfl
  | single _ ih =>
    obtain ⟨zs, hzs, hrest⟩ := ih
    exact ⟨zs, hzs.1, hrest⟩
  | @joined op ls rs _ _ ihl ihr =>
    obtain ⟨zl, hzl, hl⟩ := ihl
    obtain ⟨zr, hzr, hr⟩ := ihr
    refine ⟨zl ++ .operator op :: zr, hzr.2 zl op hzl, fun rest => ?_⟩
    calc withZeros true (ls ++ .operator op :: rs ++ rest)
        = zl ++ withZeros false (.operator op :: (rs ++ rest)) := by
          rw [← hl]
          simp
      _ = zl ++ .operator op :: zr ++ withZeros false rest := by
          rw [withZeros_operator, hr]
          simp

theorem Phrase.exists_written {ts : List Token} (h : Phrase .sentence ts) :
    ∃ e : Tree, e.Written 0 (withZeros true ts) := by
  obtain ⟨zs, hzs, hrest⟩ := h.exists_zeros
  have hown := hrest []
  obtain ⟨e, he⟩ := Chain.exists_written hzs
  refine ⟨e, ?_⟩
  simp only [withZeros, List.append_nil] at hown
  rw [hown]
  exact he.mono (Nat.zero_le 1)

theorem mapError_ne_underflow {α ε : Type} {wrap : ε → EvalError}
    (hw : ∀ cause, wrap cause ≠ .stackUnderflow) (r : Except ε α) :
    r.mapError wrap ≠ .error .stackUnderflow := by
  intro h
  cases r with
  | ok a => cases h
  | error cause => exact hw cause (Except.error.inj h)

theorem Operator.apply_ne_underflow (op : Operator) (a b : Operand) :
    op.apply a b ≠ .error .stackUnderflow := by
  cases op with
  | add => exact mapError_ne_underflow (by simp) _
  | sub => exact mapError_ne_underflow (by simp) _
  | mul => exact mapError_ne_underflow (by simp) _
  | div =>
    intro h
    have hdivide : divide a b = .error .stackUnderflow := h
    rcases divide_cases a b with ⟨cause, he⟩ | he | ⟨x, y, -, -, -, he⟩ <;>
      · rw [he] at hdivide
        cases hdivide

theorem Run.bind_result_error {α β : Type} {r : Run α} {next : α → Run β} {e : EvalError}
    (h : (r >>= next).result = .error e) :
    r.result = .error e ∨ ∃ a, (next a).result = .error e := by
  obtain ⟨asked, e' | a⟩ := r
  · rw [bind_error] at h
    cases h
    exact .inl rfl
  · rw [bind_ok] at h
    exact .inr ⟨a, h⟩

namespace Tree

theorem eval_ne_underflow (lookup : Lookup) (e : Tree) :
    (e.eval lookup).result ≠ .error .stackUnderflow := by
  intro h
  induction e with
  | number x => cases h
  | text s => cases h
  | field name =>
    rcases Run.bind_result_error h with hask | ⟨c, hpure⟩
    · cases hl : lookup name <;> simp [Run.ask, hl] at hask
    · cases hpure
  | binary op l r ihl ihr =>
    rcases Run.bind_result_error h with hl | ⟨a, hrest⟩
    · exact ihl hl
    · rcases Run.bind_result_error hrest with hr | ⟨b, hop⟩
      · exact ihr hr
      · have happly : combine op a b = .error .stackUnderflow := hop
        rw [← Operator.apply_eq_combine] at happly
        exact op.apply_ne_underflow a b happly

theorem conclude_ne_underflow (v : Operand) : conclude v ≠ .error .stackUnderflow := by
  cases v with
  | number x => cases hx : x.isFinite <;> simp [conclude, hx]
  | text s => simp [conclude]
  | field c => exact mapError_ne_underflow (by simp) _

theorem evaluateCode_ne_underflow (e : Tree) (lookup : Lookup) :
    (evaluateCode e.postorder lookup).result ≠ .error .stackUnderflow := by
  cases e with
  | number x => simp [postorder, evaluateCode, runSingle]
  | text s => simp [postorder, evaluateCode, runSingle]
  | field name =>
    cases hl : lookup name with
    | none => simp [postorder, evaluateCode, runSingle, hl]
    | some c =>
      simp only [postorder, evaluateCode, runSingle, hl]
      exact mapError_ne_underflow (by simp) _
  | binary op l r =>
    rw [evaluateCode_binary]
    intro h
    rcases Run.bind_result_error h with heval | ⟨v, hconclude⟩
    · exact eval_ne_underflow lookup _ heval
    · exact conclude_ne_underflow v hconclude

end Tree

/-- A sentence with a zero before each of its signs is the writing of one tree, where the signs are
operators like the others. Reordering the sentence succeeds and gives the tree's postorder, whose
run always has its operands. -/
theorem postfixOf_sentence {ts : List Token} (h : Phrase .sentence ts) :
    ∃ e : Tree, e.Written 0 (withZeros true ts) ∧
      (∀ e' : Tree, e'.Written 0 (withZeros true ts) → e' = e) ∧
      postfixOf ts = .ok e.postorder ∧
      ∀ lookup, (evaluateCode e.postorder lookup).result ≠ .error .stackUnderflow := by
  obtain ⟨e, he⟩ := h.exists_written
  refine ⟨e, he, fun e' he' => he'.unique he, ?_, e.evaluateCode_ne_underflow⟩
  rw [← postfixOf_withZeros]
  exact postfixOf_of_written he

/-- In `1 + 2 * -(3 - -{A})` the product binds more tightly than the sum and ends before the first
sign, and the second sign is a second subtraction. -/
theorem postfixOf_sentence_signs :
    let ts : List Token := [.number 1, .operator .add, .number 2, .operator .mul, .operator .sub,
      .left, .number 3, .operator .sub, .operator .sub, .field "A", .right]
    let sum : Tree := .binary .add (.number 1) (.binary .mul (.number 2) (.number 0))
    let inner : Tree :=
      .binary .sub (.binary .sub (.number 3) (.number 0)) (.field "A")
    let e : Tree := .binary .sub sum inner
    Phrase .sentence ts ∧ e.Written 0 (withZeros true ts) ∧ postfixOf ts = .ok e.postorder ∧
      ∀ lookup, (evaluateCode e.postorder lookup).result ≠ .error .stackUnderflow := by
  intro ts sum inner e
  have hinner : Phrase .sentence
      [.number 3, .operator .sub, .operator .sub, .field "A"] :=
    .joined (.single (.unsigned (.operand (.number 3))))
      (.signed rfl (.unsigned (.operand (.field "A"))))
  have hs : Phrase .sentence ts :=
    .joined (.joined (.single (.unsigned (.operand (.number 1)))) (.unsigned (.operand (.number 2))))
      (.signed rfl (.unsigned (.group hinner)))
  obtain ⟨e', hwritten, -, hcode, hrun⟩ := postfixOf_sentence hs
  have hkernel : postfixOf ts = .ok e.postorder := by decide +kernel
  have he : e = e' := Tree.postorder_injective (Except.ok.inj (hkernel.symm.trans hcode))
  rw [← he] at hwritten hrun
  exact ⟨hs, hwritten, hkernel, hrun⟩

end FormulaTable.Formula
