import FormulaTable.Proofs.Formula.Rejection
import FormulaTable.Proofs.Formula.Supply

/-!
# Formulas that are no sentences

Reordering refuses only unmatched parentheses and operators that cannot be signs. Any other fault of
a formula is left to the stack machine, which counts operands: one too many where two are side by
side, one too few where one is missing. Only where these make up for each other has the formula a
value.
-/

namespace FormulaTable.Formula

def Token.begins : Token → Bool
  | .number _ | .text _ | .field _ | .left => true
  | _ => false

def Token.closes : Token → Bool
  | .right => true
  | _ => false

/-- How many operands and groups begin where an operator is due. -/
def surplus (operandDue : Bool) : List Token → Nat
  | [] => 0
  | t :: rest => (!operandDue && t.begins).toNat + surplus t.opens rest

/-- How often a group or the whole list ends where an operand is due. -/
def missing (operandDue : Bool) : List Token → Nat
  | [] => operandDue.toNat
  | t :: rest => (operandDue && t.closes).toNat + missing t.opens rest

theorem Tree.Leaf.begins {e : Tree} {t : Token} (h : e.Leaf t) : t.begins = true := by
  cases h <;> rfl

theorem Tree.Leaf.closes {e : Tree} {t : Token} (h : e.Leaf t) : t.closes = false := by
  cases h <;> rfl

theorem Phrase.faults {p : Part} {ts : List Token} (h : Phrase p ts) (rest : List Token) :
    surplus true (ts ++ rest) = surplus false rest ∧
      missing true (ts ++ rest) = missing false rest := by
  induction h generalizing rest with
  | operand h => simp [surplus, missing, h.opens, h.closes]
  | group _ ih =>
    simpa [surplus, missing, Token.begins, Token.opens, Token.closes] using ih (.right :: rest)
  | unsigned _ ih => exact ih rest
  | signed _ _ ih => simpa [surplus, missing, Token.opens, Token.closes] using ih rest
  | single _ ih => exact ih rest
  | @joined op ls rs _ _ ihl ihr =>
    simpa [surplus, missing, Token.begins, Token.opens, Token.closes, ihr rest] using
      ihl (.operator op :: (rs ++ rest))

theorem Phrase.faultless {ts : List Token} (h : Phrase .sentence ts) :
    surplus true ts = 0 ∧ missing true ts = 0 := by
  have hfaults := h.faults []
  rw [List.append_nil] at hfaults
  exact hfaults

theorem Phrase.sign_sentence {op : Operator} {ts : List Token}
    (hs : (Token.operator op).isSign = true) (h : Phrase .sentence ts) : Phrase .sentence (.operator op :: ts) := by
  generalize hp : Part.sentence = p at h
  induction h with
  | single h => exact .single (.signed hs h)
  | joined hl hr ih => exact .joined (ih hp) hr
  | _ => cases hp

theorem Phrase.join {op : Operator} {ls rs : List Token} (hl : Phrase .sentence ls)
    (hr : Phrase .sentence rs) : Phrase .sentence (ls ++ .operator op :: rs) := by
  generalize hp : Part.sentence = p at hr
  induction hr with
  | single h => exact .joined hl h
  | @joined op' ms rs _ hr ih => simpa using Phrase.joined (ih hp) hr
  | _ => cases hp

def Continues (ts : List Token) : Prop :=
  ∀ ls, Phrase .sentence ls → Phrase .sentence (ls ++ ts)

theorem continues_nil : Continues [] := by
  intro ls hl
  rwa [List.append_nil]

theorem Phrase.continues {ts : List Token} (h : Phrase .sentence ts) (op : Operator) :
    Continues (.operator op :: ts) := fun _ hl => hl.join h

/-- `Regular depth operandDue ts`: each token is where it may be, with `depth` groups open at first
and none in the end. -/
inductive Regular : Nat → Bool → List Token → Prop
  | done : Regular 0 false []
  | operand {depth : Nat} {e : Tree} {t : Token} {ts : List Token} (h : e.Leaf t)
      (hr : Regular depth false ts) : Regular depth true (t :: ts)
  | sign {depth : Nat} {op : Operator} {ts : List Token}
      (hs : (Token.operator op).isSign = true) (hr : Regular depth true ts) : Regular depth true (.operator op :: ts)
  | operator {depth : Nat} (op : Operator) {ts : List Token} (hr : Regular depth true ts) :
      Regular depth false (.operator op :: ts)
  | left {depth : Nat} {ts : List Token} (hr : Regular (depth + 1) true ts) :
      Regular depth true (.left :: ts)
  | right {depth : Nat} {ts : List Token} (hr : Regular depth false ts) :
      Regular (depth + 1) false (.right :: ts)

/-- What comes up to the end of the innermost open group: a sentence where an operand is due, the
continuation of one where an operator is due. -/
def Completes (operandDue : Bool) (ts : List Token) : Prop :=
  if operandDue then Phrase .sentence ts else Continues ts

theorem Regular.exists_parts {depth : Nat} {operandDue : Bool} {ts : List Token}
    (h : Regular depth operandDue ts) :
    ∃ (first : List Token) (others : List (List Token)), Completes operandDue first ∧
      others.length = depth ∧ (∀ part ∈ others, Continues part) ∧
      ts = first ++ others.flatMap (.right :: ·) := by
  -- A closing parenthesis begins a new part; an opening one joins two.
  induction h with
  | done => exact ⟨[], [], continues_nil, rfl, by simp, rfl⟩
  | @operand depth e t ts h _ ih =>
    obtain ⟨first, others, hfirst, hlen, hothers, rfl⟩ := ih
    have ht : Phrase .sentence [t] := .single (.unsigned (.operand h))
    exact ⟨t :: first, others, hfirst _ ht, hlen, hothers, rfl⟩
  | @sign depth op ts hs _ ih =>
    obtain ⟨first, others, hfirst, hlen, hothers, rfl⟩ := ih
    exact ⟨.operator op :: first, others, hfirst.sign_sentence hs, hlen, hothers, rfl⟩
  | @operator depth op ts _ ih =>
    obtain ⟨first, others, hfirst, hlen, hothers, rfl⟩ := ih
    exact ⟨.operator op :: first, others, hfirst.continues op, hlen, hothers, rfl⟩
  | @left depth ts _ ih =>
    obtain ⟨first, _ | ⟨next, others⟩, hfirst, hlen, hothers, rfl⟩ := ih
    · cases hlen
    · obtain ⟨hnext, hothers⟩ := List.forall_mem_cons.mp hothers
      have hgroup : Phrase .sentence (.left :: first ++ [.right]) :=
        .single (.unsigned (.group hfirst))
      refine ⟨.left :: first ++ [.right] ++ next, others, hnext _ hgroup, ?_, hothers, ?_⟩
      · simpa using hlen
      · simp
  | @right depth ts _ ih =>
    obtain ⟨first, others, hfirst, hlen, hothers, rfl⟩ := ih
    refine ⟨[], first :: others, continues_nil, by simp [hlen], ?_, rfl⟩
    exact List.forall_mem_cons.mpr ⟨hfirst, hothers⟩

theorem Regular.sentence {ts : List Token} (h : Regular 0 true ts) : Phrase .sentence ts := by
  obtain ⟨first, others, hfirst, hlen, -, rfl⟩ := h.exists_parts
  rw [List.eq_nil_of_length_eq_zero hlen, List.flatMap_nil, List.append_nil]
  exact hfirst

def depthOf (waiting : List Pending) : Nat := waiting.count .paren

theorem depthOf_operators (ops : List Operator) (waiting : List Pending) :
    depthOf (ops.map .operator ++ waiting) = depthOf waiting := by
  induction ops with
  | nil => rfl
  | cons op ops ih => simpa [depthOf] using ih

theorem regular_of_reorder {waiting : List Pending} {operandDue : Bool} {ts out : List Token}
    (h : reorder waiting operandDue ts = .ok out) (hs : surplus operandDue ts = 0)
    (hm : missing operandDue ts = 0) : Regular (depthOf waiting) operandDue ts := by
  induction ts generalizing waiting operandDue out with
  | nil =>
    obtain ⟨ops, -, rfl⟩ := releaseAll_split h
    obtain rfl : operandDue = false := by simpa [missing] using hm
    have hclosed := depthOf_operators ops []
    rw [List.append_nil] at hclosed
    rw [hclosed]
    exact .done
  | cons t ts ih =>
    obtain ⟨a, tail, ha, ht, -⟩ := reorder_cons_eq_ok h
    obtain ⟨hsurplus, hs⟩ := Nat.add_eq_zero_iff.mp hs
    obtain ⟨hmissing, hm⟩ := Nat.add_eq_zero_iff.mp hm
    have hmoves := moves_of_advance ha
    rw [← hmoves.operandDue] at hs hm
    have hrest := ih ht hs hm
    cases hmoves with
    | operand hleaf =>
      obtain rfl : operandDue = true := by simpa [hleaf.begins] using hsurplus
      exact .operand hleaf hrest
    | left =>
      obtain rfl : operandDue = true := by simpa [Token.begins] using hsurplus
      exact .left (by simpa [depthOf] using hrest)
    | right hw =>
      obtain rfl : operandDue = false := by simpa [Token.closes] using hmissing
      rw [hw, depthOf_operators]
      simpa [depthOf] using Regular.right hrest
    | sign hd hsign hw =>
      subst hd
      rw [hw, depthOf_operators]
      exact .sign (by rw [Token.isSign_operator, hsign]) (by simpa [depthOf] using hrest)
    | operator hd hw =>
      subst hd
      rw [hw, depthOf_operators]
      exact .operator _ (by simpa [depthOf] using hrest)

theorem sentence_iff_faultless {ts code : List Token} (h : postfixOf ts = .ok code) :
    Phrase .sentence ts ↔ surplus true ts = 0 ∧ missing true ts = 0 :=
  ⟨Phrase.faultless, fun ⟨hs, hm⟩ => (regular_of_reorder h hs hm).sentence⟩

theorem weight_operators (ops : List Operator) : weight (ops.map .operator) = -ops.length := by
  induction ops with
  | nil => rfl
  | cons op ops ih =>
    simp only [List.map_cons, weight_cons, ih, Token.weight, List.length_cons]
    omega

def operatorsIn : List Pending → Nat
  | [] => 0
  | .operator _ :: waiting => operatorsIn waiting + 1
  | .paren :: waiting => operatorsIn waiting

theorem operatorsIn_operators (ops : List Operator) (waiting : List Pending) :
    operatorsIn (ops.map .operator ++ waiting) = ops.length + operatorsIn waiting := by
  induction ops with
  | nil => simp
  | cons op ops ih =>
    simp only [List.map_cons, List.cons_append, operatorsIn, ih, List.length_cons]
    omega

theorem Moves.weight_eq {waiting : List Pending} {operandDue : Bool} {t : Token} {a : Advance}
    (h : Moves waiting operandDue t a) :
    weight a.out + operatorsIn waiting + (operandDue && t.closes).toNat + a.operandDue.toNat =
      operandDue.toNat + (!operandDue && t.begins).toNat + operatorsIn a.waiting := by
  cases h with
  | operand h =>
    rw [h.begins, h.closes, weight_cons, weight_nil, h.weight]
    cases operandDue <;> simp
  | left =>
    cases operandDue <;> simp [operatorsIn, Token.begins, Token.closes, Int.add_comm]
  | right hw =>
    rw [hw, operatorsIn_operators, weight_operators]
    cases operandDue <;> simp [operatorsIn, Token.begins, Token.closes, Int.add_comm]
  | sign hd _ hw =>
    rw [hw, operatorsIn_operators, weight_cons, weight_operators, hd]
    simp [operatorsIn, Token.closes, Token.weight]
    omega
  | operator hd hw =>
    rw [hw, operatorsIn_operators, weight_operators, hd]
    simp [operatorsIn, Token.begins]

theorem weight_of_reorder {waiting : List Pending} {operandDue : Bool} {ts out : List Token}
    (h : reorder waiting operandDue ts = .ok out) :
    weight out + operatorsIn waiting + missing operandDue ts =
      operandDue.toNat + surplus operandDue ts := by
  induction ts generalizing waiting operandDue out with
  | nil =>
    obtain ⟨ops, rfl, rfl⟩ := releaseAll_split h
    have hops := operatorsIn_operators ops []
    rw [List.append_nil] at hops
    simp [weight_operators, hops, operatorsIn, surplus, missing]
  | cons t ts ih =>
    obtain ⟨a, tail, ha, ht, rfl⟩ := reorder_cons_eq_ok h
    have hmoves := moves_of_advance ha
    have hstep := hmoves.weight_eq
    have hrest := ih ht
    rw [hmoves.operandDue] at hstep hrest
    rw [weight_append, surplus, missing]
    omega

theorem isCode_operators (ops : List Operator) : ∀ t ∈ ops.map Token.operator, t.IsCode := by
  intro t ht
  obtain ⟨op, -, rfl⟩ := List.mem_map.mp ht
  exact .inr ⟨op, rfl⟩

theorem Moves.isCode {waiting : List Pending} {operandDue : Bool} {t : Token} {a : Advance}
    (h : Moves waiting operandDue t a) : ∀ u ∈ a.out, u.IsCode := by
  cases h with
  | @operand e t h => exact List.forall_mem_singleton.mpr (.inl ⟨e, h⟩)
  | left => exact List.forall_mem_nil _
  | @right ops rest _ => exact isCode_operators ops
  | @sign op ops rest _ _ _ =>
    exact List.forall_mem_cons.mpr ⟨.inl ⟨_, .number 0⟩, isCode_operators ops⟩
  | @operator op ops rest _ _ => exact isCode_operators ops

theorem isCode_of_reorder {waiting : List Pending} {operandDue : Bool} {ts out : List Token}
    (h : reorder waiting operandDue ts = .ok out) : ∀ t ∈ out, t.IsCode := by
  induction ts generalizing waiting operandDue out with
  | nil =>
    obtain ⟨ops, rfl, -⟩ := releaseAll_split h
    exact isCode_operators ops
  | cons t ts ih =>
    obtain ⟨a, tail, ha, ht, rfl⟩ := reorder_cons_eq_ok h
    exact List.forall_mem_append.mpr ⟨(moves_of_advance ha).isCode, ih ht⟩

/-- An error other than a lack of operands ends the run at one of the tokens. -/
def Interrupts (lookup : Lookup) (code : List Token) (e : EvalError) : Prop :=
  e ≠ .stackUnderflow ∧ ∃ before t rest stack, code = before ++ t :: rest ∧
    (run lookup before []).result = .ok stack ∧ Stop lookup t stack e

theorem interrupts_of_no_tree {code : List Token} (hcode : ∀ t ∈ code, t.IsCode)
    (hn : ∀ e : Tree, code ≠ e.postorder) (lookup : Lookup) :
    ∃ e, (evaluateCode code lookup).result = .error e ∧
      (e = .stackUnderflow ∨ Interrupts lookup code e) := by
  rw [evaluateCode_of_no_tree hcode hn]
  rcases hrun : run lookup (supplied 0 code) [] with ⟨asked, e | stack⟩
  · refine ⟨e, rfl, ?_⟩
    by_cases he : e = .stackUnderflow
    · exact .inl he
    · have herror : (run lookup (supplied 0 code) []).result = .error e := by rw [hrun]
      obtain ⟨before, t, rest, reached, hsupplied, hreached, hstop⟩ := exists_stop_at herror
      obtain ⟨more, hcode⟩ := supplied_initial 0 code
      refine .inr ⟨he, before, t, rest ++ more, reached, ?_, hreached, hstop⟩
      rw [← hcode, hsupplied]
      simp
  · exact ⟨.stackUnderflow, rfl, .inl rfl⟩

/-- A formula that is no sentence has no value: its evaluation ends with a lack of operands, or with
another error before. The exception is a formula where operands are missing and as many others stand
where an operator is due, if the tokens come out in the order of a tree; it never lacks operands. -/
theorem evaluate_not_sentence {raw : String} {f : Compiled} {ts : List Token}
    (hf : compile raw = .ok f) (hts : tokens (normalize raw) = .ok ts)
    (hn : ¬ Phrase .sentence ts) :
    (∀ lookup, ∃ e, (evaluate f lookup).result = .error e ∧
      (e = .stackUnderflow ∨ Interrupts lookup f.code e)) ∨
    (surplus true ts = missing true ts ∧ 0 < missing true ts ∧ ∃ e : Tree, f.code = e.postorder ∧
      ∀ lookup, (evaluate f lookup).result ≠ .error .stackUnderflow) := by
  obtain ⟨ts', hts', hcode, -, -⟩ := compile_eq_ok hf
  obtain rfl := Except.ok.inj (hts.symm.trans hts')
  by_cases htree : ∃ e : Tree, f.code = e.postorder
  · refine .inr ?_
    obtain ⟨e, he⟩ := htree
    have hweight := weight_of_reorder hcode
    rw [he, e.weight_postorder] at hweight
    have heq : surplus true ts = missing true ts := by
      simp only [operatorsIn, Bool.toNat_true] at hweight
      omega
    have hfaults := mt (sentence_iff_faultless hcode).mpr hn
    refine ⟨heq, by omega, e, he, fun lookup => ?_⟩
    rw [evaluate, he]
    exact e.evaluateCode_ne_underflow lookup
  · exact .inl (interrupts_of_no_tree (isCode_of_reorder hcode) (not_exists.mp htree))

theorem evaluate_not_sentence_adjacent :
    let raw := "1 2 * \x7bA\x7d"
    let ts : List Token := [.number 1, .number 2, .operator .mul, .field "A"]
    let f : Compiled :=
      ⟨raw, [.number 1, .number 2, .field "A", .operator .mul], ["A"]⟩
    tokens (normalize raw) = .ok ts ∧ ¬ Phrase .sentence ts ∧ compile raw = .ok f ∧
      ∀ lookup, ∃ e, (evaluate f lookup).result = .error e ∧
        (e = .stackUnderflow ∨ Interrupts lookup f.code e) := by
  intro raw ts f
  have hts : tokens (normalize raw) = .ok ts := by decide +kernel
  have hf : compile raw = .ok f := by decide +kernel
  have hfaults : surplus true ts ≠ missing true ts := by decide
  have hn : ¬ Phrase .sentence ts := fun h => hfaults (h.faultless.1.trans h.faultless.2.symm)
  rcases evaluate_not_sentence hf hts hn with hall | ⟨heq, -⟩
  · exact ⟨hts, hn, hf, hall⟩
  · exact absurd heq hfaults

/-- In `1 2 +` the operand too many makes up for the missing one. -/
theorem evaluate_not_sentence_made_up :
    let raw := "1 2 +"
    let ts : List Token := [.number 1, .number 2, .operator .add]
    let f : Compiled := ⟨raw, [.number 1, .number 2, .operator .add], []⟩
    tokens (normalize raw) = .ok ts ∧ ¬ Phrase .sentence ts ∧ compile raw = .ok f ∧
      ∀ lookup, (evaluate f lookup).result = .ok (.number 3) := by
  intro raw ts f
  have hn : ¬ Phrase .sentence ts := fun h => absurd h.faultless.1 (by decide)
  refine ⟨by decide +kernel, hn, by decide +kernel, fun lookup => ?_⟩
  have hvalue : (evaluate f fun _ => none).result = .ok (.number 3) := by decide +kernel
  rw [← hvalue]
  exact congrArg Run.result (evaluate_of_no_references rfl lookup _)

end FormulaTable.Formula
