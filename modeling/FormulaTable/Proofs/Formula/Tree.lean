import FormulaTable.Proofs.Formula.Reorder

/-!
# Expression trees

What a formula says, apart from how it is written: operands joined by operators. A tree is written
as a list of tokens with parentheses where the binding of the operators asks for them, and the
tokens of each such list are reordered to the tree's own order of operands before operators.
-/

namespace FormulaTable.Formula

inductive Tree
  | number (x : Float)
  | text (s : String)
  | field (name : String)
  | binary (op : Operator) (left right : Tree)
deriving DecidableEq

namespace Tree

def postorder : Tree → List Token
  | number x => [.number x]
  | text s => [.text s]
  | field name => [.field name]
  | binary op l r => l.postorder ++ r.postorder ++ [.operator op]

inductive Leaf : Tree → Token → Prop
  | number (x : Float) : Leaf (.number x) (.number x)
  | text (s : String) : Leaf (.text s) (.text s)
  | field (name : String) : Leaf (.field name) (.field name)

/-- `Written least e ts`: the tokens `ts` write the tree `e`, with no operator outside parentheses
that binds less tightly than `least`. Sums bind with 1 and products with 2, and both group to the
left, so that the right operand must bind more tightly. -/
inductive Written : Nat → Tree → List Token → Prop
  | leaf {least : Nat} {e : Tree} {t : Token} (h : Leaf e t) : Written least e [t]
  | paren {least : Nat} {e : Tree} {ts : List Token} (h : Written 0 e ts) :
      Written least e (.left :: ts ++ [.right])
  | sum {least : Nat} {op : Operator} {l r : Tree} {ls rs : List Token}
      (hop : op = .add ∨ op = .sub) (hp : least ≤ 1) (hl : Written 1 l ls)
      (hr : Written 2 r rs) : Written least (.binary op l r) (ls ++ .operator op :: rs)
  | product {least : Nat} {op : Operator} {l r : Tree} {ls rs : List Token}
      (hop : op = .mul ∨ op = .div) (hp : least ≤ 2) (hl : Written 2 l ls)
      (hr : Written 3 r rs) : Written least (.binary op l r) (ls ++ .operator op :: rs)

variable {least : Nat} {op : Operator} {l r : Tree} {ls rs : List Token}

theorem Written.binary (hp : least ≤ op.precedence) (hl : Written op.precedence l ls)
    (hr : Written (op.precedence + 1) r rs) :
    Written least (.binary op l r) (ls ++ .operator op :: rs) := by
  cases op with
  | add => exact .sum (.inl rfl) hp hl hr
  | sub => exact .sum (.inr rfl) hp hl hr
  | mul => exact .product (.inl rfl) hp hl hr
  | div => exact .product (.inr rfl) hp hl hr

/-- Sums and products are one case by the precedence of their operators. -/
@[elab_as_elim]
theorem Written.byPrecedence {motive : ∀ least e ts, Written least e ts → Prop}
    (leaf : ∀ {least e t} (h : Leaf e t), motive least e [t] (.leaf h))
    (paren : ∀ {least e ts} (h : Written 0 e ts), motive 0 e ts h →
      motive least e (.left :: ts ++ [.right]) (.paren h))
    (binary : ∀ {least op l r ls rs} (hp : least ≤ op.precedence)
      (hl : Written op.precedence l ls) (hr : Written (op.precedence + 1) r rs),
      motive op.precedence l ls hl → motive (op.precedence + 1) r rs hr →
        motive least (.binary op l r) (ls ++ .operator op :: rs) (.binary hp hl hr))
    {least : Nat} {e : Tree} {ts : List Token} (h : Written least e ts) :
    motive least e ts h := by
  induction h with
  | leaf h => exact leaf h
  | paren h ih => exact paren h ih
  | sum hop hp hl hr ihl ihr =>
    rcases hop with rfl | rfl
    · exact @binary _ .add _ _ _ _ hp hl hr ihl ihr
    · exact @binary _ .sub _ _ _ _ hp hl hr ihl ihr
  | product hop hp hl hr ihl ihr =>
    rcases hop with rfl | rfl
    · exact @binary _ .mul _ _ _ _ hp hl hr ihl ihr
    · exact @binary _ .div _ _ _ _ hp hl hr ihl ihr

end Tree

/-- All that a token can do: what it puts out, what waits after it, and whether an operand is due
then. -/
inductive Moves (waiting : List Pending) (operandDue : Bool) : Token → Advance → Prop
  | operand {e : Tree} {t : Token} (h : e.Leaf t) : Moves waiting operandDue t ⟨[t], waiting, false⟩
  | left : Moves waiting operandDue .left ⟨[], .paren :: waiting, true⟩
  | right {ops : List Operator} {rest : List Pending}
      (h : waiting = ops.map .operator ++ .paren :: rest) :
      Moves waiting operandDue .right ⟨ops.map .operator, rest, false⟩
  | sign {op : Operator} {ops : List Operator} {rest : List Pending} (hd : operandDue = true)
      (hs : op.isSign = true) (h : waiting = ops.map .operator ++ rest) :
      Moves waiting operandDue (.operator op)
        ⟨.number 0 :: ops.map .operator, .operator op :: rest, true⟩
  | operator {op : Operator} {ops : List Operator} {rest : List Pending} (hd : operandDue = false)
      (h : waiting = ops.map .operator ++ rest) :
      Moves waiting operandDue (.operator op) ⟨ops.map .operator, .operator op :: rest, true⟩

theorem moves_of_advance {waiting : List Pending} {operandDue : Bool} {t : Token} {a : Advance}
    (h : advance waiting operandDue t = .ok a) : Moves waiting operandDue t a := by
  cases t with
  | number x =>
    cases h
    exact .operand (.number x)
  | text s =>
    cases h
    exact .operand (.text s)
  | field name =>
    cases h
    exact .operand (.field name)
  | left =>
    cases h
    exact .left
  | right =>
    obtain ⟨⟨out, rest⟩, hp, h⟩ := map_eq_ok (by rwa [advance] at h)
    cases h
    obtain ⟨ops, rfl, hw⟩ := releaseParen_split hp
    exact .right hw
  | operator op =>
    obtain ⟨ops, hout, hw⟩ := releaseTo_split op.precedence waiting
    rw [advance] at h
    split at h
    · cases h
    · next hsign =>
      cases operandDue with
      | false =>
        cases h
        simp only [Bool.false_eq_true, if_false, List.nil_append, hout]
        exact .operator rfl hw
      | true =>
        cases h
        simp only [if_true, List.singleton_append, hout]
        exact .sign rfl (by simpa using hsign) hw
  | unknown symbol => cases operandDue <;> cases h

/-- Above the last open parenthesis the waiting operators end with one that binds less tightly than
`least`, or there are none. -/
def Below (least : Nat) : List Pending → Prop
  | .operator op :: _ => op.precedence < least
  | _ => True

theorem Below.mono {least precedence : Nat} {waiting : List Pending} (hp : least ≤ precedence)
    (hw : Below least waiting) : Below precedence waiting := by
  rcases waiting with _ | ⟨op | _, _⟩
  · trivial
  · exact Nat.lt_of_lt_of_le hw hp
  · trivial

theorem releaseTo_append {precedence : Nat} {ops : List Operator} {waiting : List Pending}
    (hops : ∀ op ∈ ops, precedence ≤ op.precedence) (hw : Below precedence waiting) :
    releaseTo precedence (ops.map .operator ++ waiting) = (ops.map .operator, waiting) := by
  induction ops with
  | nil =>
    match waiting, hw with
    | [], _ => rfl
    | .paren :: _, _ => rfl
    | .operator op :: _, hw => exact if_pos hw
  | cons op ops ih =>
    have hop : ¬ op.precedence < precedence := Nat.not_lt.mpr (hops op (by simp))
    simp [releaseTo, hop, ih fun o ho => hops o (List.mem_cons_of_mem op ho)]

theorem releaseParen_append (ops : List Operator) (waiting : List Pending) :
    releaseParen (ops.map .operator ++ .paren :: waiting) = .ok (ops.map .operator, waiting) := by
  induction ops with
  | nil => rfl
  | cons op ops ih => simp [releaseParen, ih, Except.map]

theorem releaseAll_operators (ops : List Operator) :
    releaseAll (ops.map .operator) = .ok (ops.map .operator) := by
  induction ops with
  | nil => rfl
  | cons op ops ih => simp [releaseAll, ih, Except.map]

theorem reorder_right (ops : List Operator) (waiting : List Pending) (operandDue : Bool)
    (rest : List Token) :
    reorder (ops.map .operator ++ .paren :: waiting) operandDue (.right :: rest) =
      emit (ops.map .operator) (reorder waiting false rest) := by
  rw [reorder_cons, advance, releaseParen_append]
  rfl

theorem reorder_between (op : Operator) (waiting : List Pending) (rest : List Token) :
    reorder waiting false (.operator op :: rest) =
      emit (releaseTo op.precedence waiting).1
        (reorder (.operator op :: (releaseTo op.precedence waiting).2) true rest) := by
  rw [reorder_cons, advance, if_neg (by simp)]
  rfl

theorem reorder_operator {op : Operator} {ops : List Operator} {waiting : List Pending}
    (hops : ∀ o ∈ ops, op.precedence ≤ o.precedence) (hw : Below op.precedence waiting)
    (rest : List Token) :
    reorder (ops.map .operator ++ waiting) false (.operator op :: rest) =
      emit (ops.map .operator) (reorder (.operator op :: waiting) true rest) := by
  rw [reorder_between, releaseTo_append hops hw]

theorem reorder_leaf {e : Tree} {t : Token} (h : e.Leaf t) (waiting : List Pending)
    (operandDue : Bool) (rest : List Token) :
    reorder waiting operandDue (t :: rest) = emit e.postorder (reorder waiting false rest) := by
  cases h <;> exact reorder_cons waiting operandDue _ rest

/-- Reading a written tree puts out its operands and some of its operators, and leaves the others
waiting; put behind the output they complete the tree's own order. -/
theorem reorder_of_written {least : Nat} {e : Tree} {ts : List Token} (h : e.Written least ts)
    {waiting : List Pending} (hw : Below least waiting) (operandDue : Bool) (rest : List Token) :
    ∃ (out : List Token) (ops : List Operator), (∀ op ∈ ops, least ≤ op.precedence) ∧
      out ++ ops.map .operator = e.postorder ∧
      reorder waiting operandDue (ts ++ rest) =
        emit out (reorder (ops.map .operator ++ waiting) false rest) := by
  induction h using Tree.Written.byPrecedence generalizing waiting operandDue rest with
  | @leaf least e t h =>
    exact ⟨e.postorder, [], by simp, by simp, reorder_leaf h waiting operandDue rest⟩
  | @paren least e ts _ ih =>
    have hparen : Below 0 (.paren :: waiting) := trivial
    obtain ⟨out, ops, -, he, hr⟩ := ih hparen true (.right :: rest)
    refine ⟨e.postorder, [], by simp, by simp, ?_⟩
    calc reorder waiting operandDue (.left :: ts ++ [.right] ++ rest)
        = reorder (.paren :: waiting) true (ts ++ .right :: rest) := by simp [reorder]
      _ = emit out (emit (ops.map .operator) (reorder waiting false rest)) := by
        rw [hr, reorder_right]
      _ = emit e.postorder (reorder waiting false rest) := by rw [emit_emit, he]
  | @binary least op l r ls rs hp _ _ ihl ihr =>
    have hwl : Below op.precedence waiting := hw.mono hp
    obtain ⟨outl, opsl, hlb, hle, hlr⟩ := ihl hwl operandDue (.operator op :: (rs ++ rest))
    have hwr : Below (op.precedence + 1) (.operator op :: waiting) := Nat.lt_succ_self _
    obtain ⟨outr, opsr, hrb, hre, hrr⟩ := ihr hwr true rest
    refine ⟨l.postorder ++ outr, opsr ++ [op], ?_, ?_, ?_⟩
    · intro o ho
      rcases List.mem_append.mp ho with ho | ho
      · exact Nat.le_trans hp (Nat.le_of_succ_le (hrb o ho))
      · exact List.mem_singleton.mp ho ▸ hp
    · simp [Tree.postorder, ← hre]
    · calc reorder waiting operandDue (ls ++ .operator op :: rs ++ rest)
          = reorder waiting operandDue (ls ++ .operator op :: (rs ++ rest)) := by simp
        _ = emit outl (emit (opsl.map .operator)
              (reorder (.operator op :: waiting) true (rs ++ rest))) := by
          rw [hlr, reorder_operator hlb hwl]
        _ = emit l.postorder (emit outr
              (reorder (opsr.map .operator ++ .operator op :: waiting) false rest)) := by
          rw [emit_emit, hle, hrr]
        _ = emit (l.postorder ++ outr)
              (reorder ((opsr ++ [op]).map .operator ++ waiting) false rest) := by
          rw [emit_emit]
          simp

theorem postfixOf_of_written {e : Tree} {ts : List Token} (h : e.Written 0 ts) :
    postfixOf ts = .ok e.postorder := by
  have hnone : Below 0 [] := trivial
  obtain ⟨out, ops, -, he, hr⟩ := reorder_of_written h hnone true []
  rw [List.append_nil, List.append_nil] at hr
  rw [postfixOf, hr, reorder, releaseAll_operators, emit_ok, he]

theorem Tree.append_postorder_inj {e e' : Tree} {before before' : List Token}
    (h : before ++ e.postorder = before' ++ e'.postorder) : before = before' ∧ e = e' := by
  induction e generalizing e' before before' with
  | binary op l r ihl ihr =>
    cases e' with
    | binary op' l' r' =>
      simp only [postorder, ← List.append_assoc] at h
      obtain ⟨hoperands, hop⟩ := List.append_inj' h rfl
      cases hop
      obtain ⟨hleft, rfl⟩ := ihr hoperands
      obtain ⟨hbefore, rfl⟩ := ihl hleft
      exact ⟨hbefore, rfl⟩
    | _ =>
      simp only [postorder, ← List.append_assoc] at h
      cases (List.append_inj' h rfl).2
  | _ =>
    -- Only a leaf ends in an operand, and it is that operand.
    cases e' <;> simp only [postorder, ← List.append_assoc] at h <;>
      obtain ⟨hbefore, ht⟩ := List.append_inj' h rfl <;> cases ht
    exact ⟨hbefore, rfl⟩

theorem Tree.postorder_injective : Function.Injective Tree.postorder := by
  intro e e' h
  have hnone : [] ++ e.postorder = [] ++ e'.postorder := h
  exact (append_postorder_inj hnone).2

theorem Tree.Written.unique {e e' : Tree} {ts : List Token} (h : e.Written 0 ts)
    (h' : e'.Written 0 ts) : e = e' := by
  have hcode := postfixOf_of_written h
  rw [postfixOf_of_written h'] at hcode
  exact (postorder_injective (Except.ok.inj hcode)).symm

end FormulaTable.Formula
