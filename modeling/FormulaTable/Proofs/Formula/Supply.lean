import FormulaTable.Proofs.Formula.Sentence

/-!
# Operands for every operator

On the stack every operator takes two values and leaves one. Whether there are two does not depend
on the fields, so that the tokens alone tell where a run lacks an operand, if no other failure ends
it before. The lists of tokens that lack none and leave one value are those of the trees.
-/

namespace FormulaTable.Formula

def Token.weight : Token → Int
  | .number _ | .text _ | .field _ => 1
  | .operator _ | .unknown _ => -1
  | .left | .right => 0

def weight (ts : List Token) : Int := (ts.map Token.weight).sum

@[simp] theorem weight_nil : weight [] = 0 := rfl

@[simp] theorem weight_cons (t : Token) (ts : List Token) :
    weight (t :: ts) = t.weight + weight ts := by
  simp [weight]

@[simp] theorem weight_append (ts us : List Token) : weight (ts ++ us) = weight ts + weight us := by
  simp [weight]

def Token.Lacks (depth : Nat) (t : Token) : Prop := t.weight < 0 ∧ depth < 2

instance (depth : Nat) (t : Token) : Decidable (t.Lacks depth) :=
  inferInstanceAs (Decidable (_ ∧ _))

/-- The tokens before the first one that lacks a value, on a stack of `depth` values. -/
def supplied (depth : Nat) : List Token → List Token
  | [] => []
  | t :: rest => if t.Lacks depth then [] else t :: supplied (depth + t.weight).toNat rest

def Token.IsCode (t : Token) : Prop := (∃ e : Tree, e.Leaf t) ∨ ∃ op, t = .operator op

theorem Tree.Leaf.weight {e : Tree} {t : Token} (h : e.Leaf t) : t.weight = 1 := by
  cases h <;> rfl

theorem Tree.weight_postorder (e : Tree) : weight e.postorder = 1 := by
  induction e with
  | binary op l r ihl ihr => simp [postorder, ihl, ihr, Token.weight]
  | _ => rfl

theorem supplied_cons {depth : Nat} {t : Token} (h : ¬ t.Lacks depth) (rest : List Token) :
    supplied depth (t :: rest) = t :: supplied (depth + t.weight).toNat rest := if_neg h

theorem supplied_initial (depth : Nat) (code : List Token) : supplied depth code <+: code := by
  induction code generalizing depth with
  | nil => exact List.prefix_rfl
  | cons t code ih =>
    by_cases hlacks : t.Lacks depth
    · rw [supplied, if_pos hlacks]
      exact List.nil_prefix
    · rw [supplied_cons hlacks]
      exact (List.prefix_cons_inj t).mpr (ih _)

theorem supplied_postorder (e : Tree) (depth : Nat) (rest : List Token) :
    supplied depth (e.postorder ++ rest) = e.postorder ++ supplied (depth + 1) rest := by
  induction e generalizing depth rest with
  | binary op l r ihl ihr =>
    have hop : ¬ Token.Lacks (depth + 1 + 1) (.operator op) := by
      simp [Token.Lacks]
    have hdepth : (((depth + 1 + 1 : Nat) : Int) + (-1)).toNat = depth + 1 := by omega
    simp only [Tree.postorder, List.append_assoc, ihl, ihr, List.singleton_append,
      supplied_cons hop, Token.weight, hdepth]
  | _ => simp [Tree.postorder, supplied, Token.Lacks, Token.weight]

theorem exists_trees {code : List Token} (hcode : ∀ t ∈ code, t.IsCode) {es : List Tree}
    (h : supplied es.length code = code) :
    ∃ es' : List Tree, (es'.length : Int) = es.length + weight code ∧
      es.reverse.flatMap Tree.postorder ++ code = es'.reverse.flatMap Tree.postorder := by
  induction code generalizing es with
  | nil => exact ⟨es, by simp, List.append_nil _⟩
  | cons t code ih =>
    obtain ⟨ht, hcode⟩ := List.forall_mem_cons.mp hcode
    by_cases hlacks : t.Lacks es.length
    · rw [supplied, if_pos hlacks] at h
      cases h
    · rw [supplied_cons hlacks] at h
      suffices hnext : ∃ next : List Tree, (next.length : Int) = es.length + t.weight ∧
          es.reverse.flatMap Tree.postorder ++ [t] = next.reverse.flatMap Tree.postorder by
        obtain ⟨next, hlen, htokens⟩ := hnext
        have hrest : supplied next.length code = code := by
          have hdepth : next.length = ((es.length : Int) + t.weight).toNat := by omega
          rw [hdepth]
          exact (List.cons.inj h).2
        obtain ⟨es', hlen', hall⟩ := ih hcode hrest
        refine ⟨es', by rw [hlen', hlen, weight_cons]; omega, ?_⟩
        rw [← hall, ← htokens, List.append_assoc]
        rfl
      -- A leaf is a tree by itself; an operator joins the last two trees.
      rcases ht with ⟨e, hleaf⟩ | ⟨op, rfl⟩
      · refine ⟨e :: es, by rw [hleaf.weight]; simp, ?_⟩
        cases hleaf <;> simp [Tree.postorder]
      · have hdepth : 2 ≤ es.length := by
          rw [Token.Lacks, Token.weight] at hlacks
          omega
        obtain ⟨r, l, below, rfl⟩ : ∃ r l below, es = r :: l :: below := by
          rcases es with _ | ⟨r, _ | ⟨l, below⟩⟩
          · simp at hdepth
          · simp at hdepth
          · exact ⟨r, l, below, rfl⟩
        exact ⟨.binary op l r :: below, by simp [Token.weight], by simp [Tree.postorder]⟩

theorem exists_tree_iff {code : List Token} (hcode : ∀ t ∈ code, t.IsCode) :
    (∃ e : Tree, code = e.postorder) ↔ supplied 0 code = code ∧ weight code = 1 := by
  constructor
  · rintro ⟨e, rfl⟩
    refine ⟨?_, e.weight_postorder⟩
    have hsupplied := supplied_postorder e 0 []
    simpa [supplied] using hsupplied
  · rintro ⟨hsupplied, hweight⟩
    have hnone : supplied ([] : List Tree).length code = code := hsupplied
    obtain ⟨es, hlen, htokens⟩ := exists_trees hcode hnone
    have hone : es.length = 1 := by
      simp only [List.length_nil] at hlen
      omega
    obtain ⟨e, rfl⟩ := List.length_eq_one_iff.mp hone
    exact ⟨e, by simpa using htokens⟩

section Runs
variable {lookup : Lookup} {t : Token} {code : List Token} {stack reached : List Operand}

theorem Step.length_eq (h : Step lookup t stack reached) :
    (reached.length : Int) = stack.length + t.weight := by
  cases h <;> simp [Token.weight]

theorem Step.not_lacks (h : Step lookup t stack reached) : ¬ t.Lacks stack.length := by
  cases h <;> simp [Token.Lacks, Token.weight]

theorem Step.supplied_cons (h : Step lookup t stack reached) (rest : List Token) :
    supplied stack.length (t :: rest) = t :: supplied reached.length rest := by
  have hlen := h.length_eq
  have hdepth : ((stack.length : Int) + t.weight).toNat = reached.length := by omega
  rw [Formula.supplied_cons h.not_lacks, hdepth]

theorem supplied_of_run (h : (run lookup code stack).result = .ok reached) :
    supplied stack.length code = code ∧
      (reached.length : Int) = stack.length + weight code := by
  induction code generalizing stack with
  | nil =>
    cases h
    exact ⟨rfl, by simp⟩
  | cons t code ih =>
    rcases run_cons_cases lookup t code stack with ⟨after, hstep, hr⟩ | ⟨e, -, hr⟩
    · rw [hr] at h
      obtain ⟨hsupplied, hlen⟩ := ih h
      have hstepped := hstep.length_eq
      exact ⟨by rw [hstep.supplied_cons, hsupplied], by rw [weight_cons]; omega⟩
    · rw [hr] at h
      cases h

theorem run_of_lacks (h : t.Lacks stack.length) (rest : List Token) :
    run lookup (t :: rest) stack = ⟨[], .error .stackUnderflow⟩ := by
  obtain ⟨hweight, hshort⟩ := h
  match stack, hshort with
  | [], _ => cases t <;> simp_all [Token.weight, run]
  | [a], _ => cases t <;> simp_all [Token.weight, run]

theorem run_of_supplied_ne (h : supplied stack.length code ≠ code) :
    run lookup code stack =
      run lookup (supplied stack.length code) stack >>= fun _ =>
        Run.ofExcept (.error .stackUnderflow) := by
  -- For every stack: whether a value is lacking depends on how many there are, not on which.
  induction code generalizing stack with
  | nil => exact absurd rfl h
  | cons t code ih =>
    by_cases hlacks : t.Lacks stack.length
    · rw [run_of_lacks hlacks, supplied, if_pos hlacks]
      rfl
    · rw [Formula.supplied_cons hlacks] at h ⊢
      have hsplit (rest : List Token) :
          run lookup (t :: rest) stack = run lookup [t] stack >>= run lookup rest :=
        run_append lookup [t] rest stack
      rw [hsplit code, hsplit (supplied _ code), bind_assoc]
      rcases run_cons_cases lookup t [] stack with ⟨after, hstep, hr⟩ | ⟨e, -, hr⟩
      · have hlen := hstep.length_eq
        have hdepth : ((stack.length : Int) + t.weight).toNat = after.length := by omega
        rw [hdepth] at h ⊢
        have hrest := ih fun heq => h (congrArg (t :: ·) heq)
        rw [hr]
        simp only [run, Run.bind_ok, hrest]
      · rw [hr]
        rfl

inductive EvalError.IsFailure : EvalError → Prop
  | lookup (name : String) : IsFailure (.lookupFailed name)
  | division : IsFailure .divisionByZero
  | conversion (cause : CellError) : IsFailure (.unusableOperand cause)

theorem isFailure_mapError {α : Type} {r : Except CellError α} {e : EvalError}
    (h : r.mapError .unusableOperand = .error e) : e.IsFailure := by
  cases r with
  | ok a => cases h
  | error cause =>
    cases h
    exact .conversion cause

theorem Operator.isFailure_of_apply {op : Operator} {a b : Operand} {e : EvalError}
    (h : op.apply a b = .error e) : e.IsFailure := by
  cases op with
  | add => exact isFailure_mapError h
  | sub => exact isFailure_mapError h
  | mul => exact isFailure_mapError h
  | div =>
    have hdivide : divide a b = .error e := h
    rcases divide_cases a b with ⟨cause, he⟩ | he | ⟨x, y, -, -, -, hv⟩
    · rw [he] at hdivide
      cases hdivide
      exact .conversion cause
    · rw [he] at hdivide
      cases hdivide
      exact .division
    · rw [hv] at hdivide
      cases hdivide

theorem Stop.isFailure {e : EvalError} (h : Stop lookup t stack e) (ht : t.IsCode)
    (hlacks : ¬ t.Lacks stack.length) : e.IsFailure := by
  cases h with
  | unanswered _ _ => exact .lookup _
  | short op hshort => exact absurd ⟨by simp [Token.weight], hshort⟩ hlacks
  | refused hop _ => exact Operator.isFailure_of_apply hop
  | unknownShort _ _ => rcases ht with ⟨e, he⟩ | ⟨op, he⟩ <;> cases he
  | unknown _ _ _ _ => rcases ht with ⟨e, he⟩ | ⟨op, he⟩ <;> cases he

theorem isFailure_of_run {e : EvalError} (hcode : ∀ t ∈ code, t.IsCode)
    (h : (run lookup (supplied stack.length code) stack).result = .error e) : e.IsFailure := by
  induction code generalizing stack with
  | nil => cases h
  | cons t code ih =>
    obtain ⟨ht, hcode⟩ := List.forall_mem_cons.mp hcode
    by_cases hlacks : t.Lacks stack.length
    · rw [supplied, if_pos hlacks] at h
      cases h
    · rw [Formula.supplied_cons hlacks] at h
      rcases run_cons_cases lookup t (supplied (stack.length + t.weight).toNat code) stack with
        ⟨after, hstep, hr⟩ | ⟨e', hstop, hr⟩
      · have hlen := hstep.length_eq
        have hdepth : ((stack.length : Int) + t.weight).toNat = after.length := by omega
        rw [hr, hdepth] at h
        exact ih hcode h
      · rw [hr] at h
        cases h
        exact hstop.isFailure ht hlacks

end Runs

theorem finish_of_length_ne {stack : List Operand} (h : stack.length ≠ 1) :
    finish stack = .error .stackUnderflow := by
  match stack, h with
  | [], _ => rfl
  | [a], h => exact absurd rfl h
  | a :: b :: below, _ => cases a <;> rfl

theorem evaluateCode_of_no_tree {code : List Token} (hcode : ∀ t ∈ code, t.IsCode)
    (hn : ∀ e : Tree, code ≠ e.postorder) (lookup : Lookup) :
    evaluateCode code lookup =
      run lookup (supplied 0 code) [] >>= fun _ => Run.ofExcept (.error .stackUnderflow) := by
  rcases evaluateCode_cases lookup code with ⟨t, rfl, hr⟩ | hr
  · rcases hcode t (List.mem_singleton_self t) with ⟨e, hleaf⟩ | ⟨op, rfl⟩
    · refine absurd ?_ (hn e)
      cases hleaf <;> rfl
    · rw [hr]
      rfl
  · rw [hr, runOnStack_eq]
    by_cases hsupplied : supplied 0 code = code
    · -- No token lacks a value, so that at the end the number of values is wrong.
      rw [hsupplied]
      rcases hrun : run lookup code [] with ⟨asked, e | stack⟩
      · rfl
      · have hend : (run lookup code []).result = .ok stack := by rw [hrun]
        obtain ⟨-, hlen⟩ := supplied_of_run hend
        have hweight : weight code ≠ 1 := by
          intro hone
          obtain ⟨e, he⟩ := (exists_tree_iff hcode).mpr ⟨hsupplied, hone⟩
          exact hn e he
        have hone : stack.length ≠ 1 := by
          simp only [List.length_nil] at hlen
          omega
        simp only [Run.bind_ok, finish_of_length_ne hone]
    · have hrun : run lookup code [] = run lookup (supplied 0 code) [] >>= fun _ =>
          Run.ofExcept (.error .stackUnderflow) := run_of_supplied_ne hsupplied
      rw [hrun, bind_assoc]
      rfl

/-- The stack machine computes the trees and nothing else. A list of tokens belongs to one tree at
most, and to one just when no operator lacks a value and one value is left. The tokens of a tree
with an operator come to the value of the tree, with the same questions and the same first error.
Tokens of no tree end with a lack of values, unless a failure at a token before ends the run. -/
theorem evaluateCode_iff_tree {code : List Token} (hcode : ∀ t ∈ code, t.IsCode) :
    (∀ e e' : Tree, code = e.postorder → code = e'.postorder → e = e') ∧
      ((∃ e : Tree, code = e.postorder) ↔ supplied 0 code = code ∧ weight code = 1) ∧
      (∀ op l r, code = (Tree.binary op l r).postorder → ∀ lookup,
        evaluateCode code lookup = (Tree.binary op l r).value lookup) ∧
      ((∀ e : Tree, code ≠ e.postorder) → ∀ lookup,
        (∃ stack, (run lookup (supplied 0 code) []).result = .ok stack ∧
          (evaluateCode code lookup).result = .error .stackUnderflow) ∨
        ∃ e, e.IsFailure ∧ (run lookup (supplied 0 code) []).result = .error e ∧
          (evaluateCode code lookup).result = .error e) := by
  refine ⟨?_, exists_tree_iff hcode, ?_, ?_⟩
  · intro e e' he he'
    exact Tree.postorder_injective (he.symm.trans he')
  · rintro op l r rfl lookup
    exact evaluateCode_binary lookup op l r
  · intro hn lookup
    rw [evaluateCode_of_no_tree hcode hn]
    rcases hrun : run lookup (supplied 0 code) [] with ⟨asked, e | stack⟩
    · have herror : (run lookup (supplied ([] : List Operand).length code) []).result =
          .error e := by
        rw [List.length_nil, hrun]
      exact .inr ⟨e, isFailure_of_run hcode herror, rfl, rfl⟩
    · exact .inl ⟨stack, rfl, rfl⟩

theorem evaluateCode_iff_tree_divided :
    let code : List Token := [.number 1, .field "A", .operator .div, .operator .mul]
    (∀ t ∈ code, t.IsCode) ∧ (∀ e : Tree, code ≠ e.postorder) ∧
      (evaluateCode code fun _ => some (.whole 2)).result = .error .stackUnderflow ∧
      (evaluateCode code fun _ => some (.whole 0)).result = .error .divisionByZero := by
  intro code
  have hcode : ∀ t ∈ code, t.IsCode := by
    simp only [code, List.forall_mem_cons]
    exact ⟨.inl ⟨_, .number 1⟩, .inl ⟨_, .field "A"⟩, .inr ⟨_, rfl⟩, .inr ⟨_, rfl⟩,
      List.forall_mem_nil _⟩
  obtain ⟨-, htree, -, hruns⟩ := evaluateCode_iff_tree hcode
  have hn : ∀ e : Tree, code ≠ e.postorder := by
    intro e he
    have hsupplied := (htree.mp ⟨e, he⟩).1
    exact absurd hsupplied (by decide +kernel)
  -- Operands cannot be compared, so that only the end of a run is decided.
  let ending (lookup : Lookup) : Except EvalError Unit :=
    (run lookup (supplied 0 code) []).result.map fun _ => ()
  have hdone : ending (fun _ => some (.whole 2)) = .ok () := by decide +kernel
  have hstopped : ending (fun _ => some (.whole 0)) = .error .divisionByZero := by decide +kernel
  refine ⟨hcode, hn, ?_, ?_⟩
  · rcases hruns hn fun _ => some (.whole 2) with ⟨-, -, hresult⟩ | ⟨e, -, hfailed, -⟩
    · exact hresult
    · simp only [ending, hfailed, Except.map] at hdone
      cases hdone
  · rcases hruns hn fun _ => some (.whole 0) with ⟨stack, hran, -⟩ | ⟨e, -, hfailed, hresult⟩
    · simp only [ending, hran, Except.map] at hstopped
      cases hstopped
    · simp only [ending, hfailed, Except.map] at hstopped
      cases hstopped
      exact hresult

end FormulaTable.Formula
