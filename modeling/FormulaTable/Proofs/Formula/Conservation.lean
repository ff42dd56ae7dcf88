import FormulaTable.Proofs.Formula.Asking
import FormulaTable.Proofs.Formula.Balance

/-!
# What reordering keeps

Reordering moves operators behind operands, adds a zero for each sign and leaves the parentheses out.
Whatever list of tokens it accepts, nothing else is lost, repeated or added: the operands keep their
order, the operators their number, and the fields of the formula are those of its tokens in the order
in which they first occur.
-/

namespace FormulaTable.Formula

open scoped List

def Token.isOperand : Token → Bool
  | .number _ | .text _ | .field _ => true
  | _ => false

def Token.isParen : Token → Bool
  | .left | .right => true
  | _ => false

def operands (ts : List Token) : List Token := ts.filter Token.isOperand

def operators (ts : List Token) : List Operator :=
  ts.filterMap fun | .operator op => some op | _ => none

def waitingOperators (waiting : List Pending) : List Operator :=
  waiting.filterMap fun | .operator op => some op | .paren => none

/-- How many signs stand first, after an operator or after an opening parenthesis. -/
def unarySigns (operandDue : Bool) : List Token → Nat
  | [] => 0
  | t :: rest => (operandDue && t.isSign).toNat + unarySigns t.opens rest

section Lists
variable (ts us : List Token) (waiting rest : List Pending) (ops : List Operator)

@[simp] theorem operands_append : operands (ts ++ us) = operands ts ++ operands us :=
  List.filter_append ..

@[simp] theorem operands_map_operator : operands (ops.map .operator) = [] := by
  simp [operands, Token.isOperand]

@[simp] theorem operators_append : operators (ts ++ us) = operators ts ++ operators us :=
  List.filterMap_append

@[simp] theorem operators_map_operator : operators (ops.map .operator) = ops := by
  simp [operators, List.filterMap_map]

@[simp] theorem waitingOperators_append :
    waitingOperators (waiting ++ rest) = waitingOperators waiting ++ waitingOperators rest :=
  List.filterMap_append

@[simp] theorem waitingOperators_paren :
    waitingOperators (.paren :: rest) = waitingOperators rest := rfl

@[simp] theorem waitingOperators_map_operator : waitingOperators (ops.map .operator) = ops := by
  simp [waitingOperators, List.filterMap_map]

end Lists

theorem Tree.Leaf.operands {e : Tree} {t : Token} (h : e.Leaf t) : operands [t] = [t] := by
  cases h <;> rfl

theorem Tree.Leaf.operators {e : Tree} {t : Token} (h : e.Leaf t) : operators [t] = [] := by
  cases h <;> rfl

theorem Tree.Leaf.isSign {e : Tree} {t : Token} (h : e.Leaf t) : t.isSign = false := by
  cases h <;> rfl

section Moves
variable {waiting : List Pending} {due : Bool} {t : Token} {a : Advance}

theorem Moves.operands_eq (h : Moves waiting due t a) :
    operands a.out = (if due && t.isSign then [.number 0] else []) ++ operands [t] := by
  cases h with
  | operand h =>
    rw [h.operands, h.isSign]
    simp
  | left => cases due <;> rfl
  | right _ =>
    rw [operands_map_operator]
    cases due <;> rfl
  | @sign op ops rest hd hs _ =>
    have hzero : operands (.number 0 :: ops.map .operator) =
        .number 0 :: operands (ops.map .operator) := rfl
    rw [hzero, operands_map_operator, hd]
    simp [Token.isSign_operator, hs, operands, Token.isOperand]
  | operator hd _ =>
    rw [operands_map_operator, hd]
    rfl

theorem perm_behind (op : Operator) (ops rest : List Operator) :
    ops ++ op :: rest ~ ops ++ rest ++ [op] :=
  List.perm_middle.trans (List.perm_append_singleton op (ops ++ rest)).symm

theorem Moves.operators_perm (h : Moves waiting due t a) :
    operators a.out ++ waitingOperators a.waiting ~ waitingOperators waiting ++ operators [t] := by
  cases h with
  | operand h =>
    rw [h.operators, List.append_nil]
    exact .rfl
  | left => exact .of_eq (List.append_nil _).symm
  | @right ops rest hw => simp [hw, operators]
  | @sign op ops rest _ _ hw =>
    have hout : operators (.number 0 :: ops.map .operator) = ops := operators_map_operator ops
    rw [hout, hw, waitingOperators_append, waitingOperators_map_operator]
    exact perm_behind op ops (waitingOperators rest)
  | @operator op ops rest _ hw =>
    rw [operators_map_operator, hw, waitingOperators_append, waitingOperators_map_operator]
    exact perm_behind op ops (waitingOperators rest)

theorem Moves.isKnown (h : Moves waiting due t a) : t.IsKnown := by
  intro symbol he
  subst he
  cases h with
  | operand h => cases h

end Moves

theorem operands_withZeros_cons (due : Bool) (t : Token) (ts : List Token) :
    operands (withZeros due (t :: ts)) =
      (if due && t.isSign then [.number 0] else []) ++ operands [t] ++
        operands (withZeros t.opens ts) := by
  have hsplit : withZeros due (t :: ts) =
      (if due && t.isSign then [.number 0] else []) ++ [t] ++ withZeros t.opens ts := by
    simp [withZeros]
  have hzero : operands (if due && t.isSign then [.number 0] else []) =
      if due && t.isSign then [.number 0] else [] := by split <;> rfl
  rw [hsplit, operands_append, operands_append, hzero]

section Reorder
variable {waiting : List Pending} {due : Bool} {ts out : List Token}

theorem reorder_operands (h : reorder waiting due ts = .ok out) :
    operands out = operands (withZeros due ts) := by
  induction ts generalizing waiting due out with
  | nil =>
    obtain ⟨ops, rfl, -⟩ := releaseAll_split h
    exact operands_map_operator ops
  | cons t ts ih =>
    obtain ⟨a, tail, ha, ht, rfl⟩ := reorder_cons_eq_ok h
    have hmoves := moves_of_advance ha
    rw [operands_append, hmoves.operands_eq, ih ht, operands_withZeros_cons, hmoves.operandDue]

theorem reorder_operators (h : reorder waiting due ts = .ok out) :
    operators out ~ waitingOperators waiting ++ operators ts := by
  induction ts generalizing waiting due out with
  | nil =>
    obtain ⟨ops, rfl, rfl⟩ := releaseAll_split h
    exact .of_eq (by simp [operators])
  | cons t ts ih =>
    obtain ⟨a, tail, ha, ht, rfl⟩ := reorder_cons_eq_ok h
    have hstep := (moves_of_advance ha).operators_perm
    calc operators (a.out ++ tail)
        = operators a.out ++ operators tail := operators_append a.out tail
      _ ~ operators a.out ++ (waitingOperators a.waiting ++ operators ts) := (ih ht).append_left _
      _ = operators a.out ++ waitingOperators a.waiting ++ operators ts :=
        (List.append_assoc ..).symm
      _ ~ waitingOperators waiting ++ operators [t] ++ operators ts := hstep.append_right _
      _ = waitingOperators waiting ++ operators (t :: ts) := by
        rw [List.append_assoc, ← operators_append]
        rfl

theorem isKnown_of_reorder (h : reorder waiting due ts = .ok out) : ∀ t ∈ ts, t.IsKnown := by
  induction ts generalizing waiting due out with
  | nil => exact List.forall_mem_nil _
  | cons t ts ih =>
    obtain ⟨a, tail, ha, ht, -⟩ := reorder_cons_eq_ok h
    exact List.forall_mem_cons.mpr ⟨(moves_of_advance ha).isKnown, ih ht⟩

end Reorder

theorem Token.IsCode.isParen {t : Token} (h : t.IsCode) : t.isParen = false := by
  rcases h with ⟨e, he⟩ | ⟨op, rfl⟩
  · cases he <;> rfl
  · rfl

theorem Token.IsCode.isKnown {t : Token} (h : t.IsCode) : t.IsKnown := by
  rintro symbol rfl
  rcases h with ⟨e, he⟩ | ⟨op, he⟩ <;> cases he

theorem length_operands_withZeros (due : Bool) (ts : List Token) :
    (operands (withZeros due ts)).length = (operands ts).length + unarySigns due ts := by
  induction ts generalizing due with
  | nil => rfl
  | cons t ts ih =>
    have hhead : operands (t :: ts) = operands [t] ++ operands ts := operands_append [t] ts
    rw [operands_withZeros_cons, hhead, unarySigns]
    simp only [List.length_append, ih]
    cases due && t.isSign <;> simp <;> omega

theorem Token.IsKnown.length_eq {t : Token} (h : t.IsKnown) :
    (operands [t]).length + (operators [t]).length = (!t.isParen).toNat := by
  cases t with
  | unknown symbol => exact absurd rfl (h symbol)
  | _ => rfl

theorem countP_not_isParen {ts : List Token} (hk : ∀ t ∈ ts, t.IsKnown) :
    ts.countP (!·.isParen) = (operands ts).length + (operators ts).length := by
  induction ts with
  | nil => rfl
  | cons t ts ih =>
    obtain ⟨ht, hk⟩ := List.forall_mem_cons.mp hk
    have hoperands : operands (t :: ts) = operands [t] ++ operands ts := operands_append [t] ts
    have hoperators : operators (t :: ts) = operators [t] ++ operators ts :=
      operators_append [t] ts
    have hone : (if (!t.isParen) = true then 1 else 0) =
        (operands [t]).length + (operators [t]).length := by
      rw [ht.length_eq]
      cases t.isParen <;> rfl
    rw [List.countP_cons, ih hk, hone, hoperands, hoperators, List.length_append,
      List.length_append]
    omega

/-- The names are those of the list, each once, in the order in which they first occur there. -/
structure FirstOccurrences (names all : List String) : Prop where
  nodup : names.Nodup
  mem_iff : ∀ name, name ∈ names ↔ name ∈ all
  ordered : names.Pairwise fun first second => all.idxOf first < all.idxOf second

theorem pairwise_idxOf_eraseDups (all : List String) :
    all.eraseDups.Pairwise fun first second => all.idxOf first < all.idxOf second := by
  induction all using List.reverseRecOn with
  | nil => exact .nil
  | append_singleton all name ih =>
    have hbefore {other : String} (h : other ∈ all) : (all ++ [name]).idxOf other = all.idxOf other :=
      List.idxOf_append_of_mem h
    have hkept : all.eraseDups.Pairwise fun first second =>
        (all ++ [name]).idxOf first < (all ++ [name]).idxOf second :=
      ih.imp_of_mem fun hfirst hsecond hlt => by
        rwa [hbefore (List.mem_eraseDups.mp hfirst), hbefore (List.mem_eraseDups.mp hsecond)]
    rw [List.eraseDups_append]
    by_cases hname : name ∈ all
    · simpa [List.removeAll, hname] using hkept
    · have hnew : (all ++ [name]).idxOf name = all.length := by
        rw [List.idxOf_append_of_notMem hname]
        simp
      have hlast : ∀ first ∈ all.eraseDups,
          (all ++ [name]).idxOf first < (all ++ [name]).idxOf name := by
        intro first hfirst
        rw [hbefore (List.mem_eraseDups.mp hfirst), hnew]
        exact List.idxOf_lt_length_of_mem (List.mem_eraseDups.mp hfirst)
      have hsingle : ([name].removeAll all).eraseDups = [name] := by
        simp [List.removeAll, hname, List.eraseDups_cons]
      rw [hsingle]
      refine List.pairwise_append.mpr ⟨hkept, List.pairwise_singleton _ _, ?_⟩
      simpa using hlast

theorem firstOccurrences_eraseDups (all : List String) : FirstOccurrences all.eraseDups all where
  nodup := (pairwise_idxOf_eraseDups all).imp fun hlt he => absurd (he ▸ hlt) (lt_irrefl _)
  mem_iff _ := List.mem_eraseDups
  ordered := pairwise_idxOf_eraseDups all

/-- Whatever list of tokens is accepted, reordering keeps its operands in their order, with a zero
for each sign that lacks an operand, and its operators in some order; parentheses are left out. The
fields of the formula are each listed once, by their first occurrence in the text and in the code
alike. -/
theorem postfixOf_conserves {ts code : List Token} (h : postfixOf ts = .ok code) :
    operands code = operands (withZeros true ts) ∧
      operators code ~ operators ts ∧
      (∀ t ∈ code, t.isParen = false) ∧
      code.length = ts.countP (!·.isParen) + unarySigns true ts ∧
      FirstOccurrences (Token.fields ts) (Token.references ts) ∧
      FirstOccurrences (Token.fields ts) (Token.references code) ∧
      (∀ raw f, tokens (normalize raw) = .ok ts → compile raw = .ok f →
        f.code = code ∧ f.dependencies = Token.fields ts) ∧
      ∀ raw name, (Compiled.mk raw code (Token.fields ts)).references name = true ↔
        .field name ∈ code := by
  have hoperands : operands code = operands (withZeros true ts) := reorder_operands h
  have hoperators : operators code ~ operators ts := reorder_operators h
  have hreferences : Token.references code = Token.references ts := reorder_references h
  have hfirst : FirstOccurrences (Token.fields ts) (Token.references ts) :=
    firstOccurrences_eraseDups (Token.references ts)
  have hparen : ∀ t ∈ code, t.isParen = false := fun t ht => (isCode_of_reorder h t ht).isParen
  have hlength : code.length = ts.countP (!·.isParen) + unarySigns true ts :=
    calc code.length
        = (operands code).length + (operators code).length := by
          rw [← countP_not_isParen fun t ht => (isCode_of_reorder h t ht).isKnown,
            List.countP_eq_length.mpr fun t ht => by simp [hparen t ht]]
      _ = (operands ts).length + unarySigns true ts + (operators ts).length := by
          rw [hoperands, length_operands_withZeros, hoperators.length_eq]
      _ = ts.countP (!·.isParen) + unarySigns true ts := by
          rw [countP_not_isParen (isKnown_of_reorder h)]
          omega
  refine ⟨hoperands, hoperators, hparen, hlength, hfirst, hreferences ▸ hfirst, ?_, ?_⟩
  · intro raw f hts hf
    obtain ⟨ts', hts', hcode, hfields, -⟩ := compile_eq_ok hf
    obtain rfl := Except.ok.inj (hts.symm.trans hts')
    exact ⟨Except.ok.inj (hcode.symm.trans h), hfields⟩
  · intro raw name
    rw [Compiled.references, List.contains_iff_mem, hfirst.mem_iff, ← hreferences, mem_references]

theorem postfixOf_conserves_stray :
    let ts : List Token := [.left, .operator .sub, .field "B", .right, .field "A", .operator .div,
      .field "B", .operator .add]
    let code : List Token := [.number 0, .field "B", .operator .sub, .field "A", .field "B",
      .operator .div, .operator .add]
    postfixOf ts = .ok code ∧ operators code ~ operators ts ∧
      code.length = ts.countP (!·.isParen) + unarySigns true ts ∧
      FirstOccurrences ["B", "A"] ["B", "A", "B"] := by
  intro ts code
  have hcode : postfixOf ts = .ok code := by decide +kernel
  obtain ⟨-, hoperators, -, hlength, hfirst, -⟩ := postfixOf_conserves hcode
  have hfields : Token.fields ts = ["B", "A"] := by decide +kernel
  rw [hfields] at hfirst
  exact ⟨hcode, hoperators, hlength, hfirst⟩

end FormulaTable.Formula
