import FormulaTable.Proofs.Formula.Reading

/-!
# The stack machine step by step

A token either takes the stack to another one or ends the run with an error. A run is such steps
one after the other, and asks for a field at the step of its token and nowhere else.
-/

namespace FormulaTable.Formula

variable {lookup : Lookup} {t : Token} {code : List Token} {stack after : List Operand}

inductive Step (lookup : Lookup) : Token → List Operand → List Operand → Prop
  | number (x : Float) (stack : List Operand) :
      Step lookup (.number x) stack (.number x :: stack)
  | text (s : String) (stack : List Operand) : Step lookup (.text s) stack (.text s :: stack)
  | field {name : String} {c : Cell} (h : lookup name = some c) (stack : List Operand) :
      Step lookup (.field name) stack (.field c :: stack)
  | operator {op : Operator} {a b v : Operand} (h : op.apply a b = .ok v) (below : List Operand) :
      Step lookup (.operator op) (b :: a :: below) (v :: below)
  | left (stack : List Operand) : Step lookup .left stack stack
  | right (stack : List Operand) : Step lookup .right stack stack

inductive Stop (lookup : Lookup) : Token → List Operand → EvalError → Prop
  | unanswered {name : String} (h : lookup name = none) (stack : List Operand) :
      Stop lookup (.field name) stack (.lookupFailed name)
  | short (op : Operator) {stack : List Operand} (h : stack.length < 2) :
      Stop lookup (.operator op) stack .stackUnderflow
  | refused {op : Operator} {a b : Operand} {e : EvalError} (h : op.apply a b = .error e)
      (below : List Operand) : Stop lookup (.operator op) (b :: a :: below) e
  | unknownShort (symbol : String) {stack : List Operand} (h : stack.length < 2) :
      Stop lookup (.unknown symbol) stack .stackUnderflow
  | unknown (symbol : String) (a b : Operand) (below : List Operand) :
      Stop lookup (.unknown symbol) (b :: a :: below) (.unknownOperator symbol)

theorem run_cons_cases (lookup : Lookup) (t : Token) (code : List Token) (stack : List Operand) :
    (∃ after, Step lookup t stack after ∧ run lookup (t :: code) stack =
      ⟨Token.references [t] ++ (run lookup code after).asked, (run lookup code after).result⟩) ∨
    ∃ e, Stop lookup t stack e ∧
      run lookup (t :: code) stack = ⟨Token.references [t], .error e⟩ := by
  cases t with
  | number x => exact .inl ⟨_, .number x stack, rfl⟩
  | text s => exact .inl ⟨_, .text s stack, rfl⟩
  | left => exact .inl ⟨_, .left stack, rfl⟩
  | right => exact .inl ⟨_, .right stack, rfl⟩
  | field name =>
    cases h : lookup name with
    | none => exact .inr ⟨_, .unanswered h stack, by simp [run, h, Token.references]⟩
    | some c =>
      exact .inl ⟨_, .field h stack, by simp [run, h, Token.references, Run.after]⟩
  | operator op =>
    rcases stack with _ | ⟨b, _ | ⟨a, below⟩⟩
    · exact .inr ⟨_, .short op (by simp), rfl⟩
    · exact .inr ⟨_, .short op (by simp), rfl⟩
    · cases h : op.apply a b with
      | error e => exact .inr ⟨_, .refused h below, by simp [run, h, Token.references]⟩
      | ok v => exact .inl ⟨_, .operator h below, by simp [run, h, Token.references]⟩
  | unknown symbol =>
    rcases stack with _ | ⟨b, _ | ⟨a, below⟩⟩
    · exact .inr ⟨_, .unknownShort symbol (by simp), rfl⟩
    · exact .inr ⟨_, .unknownShort symbol (by simp), rfl⟩
    · exact .inr ⟨_, .unknown symbol a b below, rfl⟩

theorem Step.run_cons (h : Step lookup t stack after) (code : List Token) :
    (run lookup (t :: code) stack).result = (run lookup code after).result := by
  cases h with
  | field h _ => simp only [run, h, Run.after]
  | operator h _ => simp only [run, h]
  | _ => rfl

theorem exists_step_of_run_concat (h : (run lookup (code ++ [t]) stack).result = .ok after) :
    ∃ reached, (run lookup code stack).result = .ok reached ∧ Step lookup t reached after := by
  induction code generalizing stack with
  | nil =>
    rcases run_cons_cases lookup t [] stack with ⟨reached, hstep, hr⟩ | ⟨e, -, hr⟩
    · rw [List.nil_append, hr] at h
      cases h
      exact ⟨stack, rfl, hstep⟩
    · rw [List.nil_append, hr] at h
      cases h
  | cons u code ih =>
    rcases run_cons_cases lookup u (code ++ [t]) stack with ⟨next, hnext, hr⟩ | ⟨e, -, hr⟩
    · rw [List.cons_append, hr] at h
      obtain ⟨reached, hrun, hstep⟩ := ih h
      refine ⟨reached, ?_, hstep⟩
      rw [hnext.run_cons]
      exact hrun
    · rw [List.cons_append, hr] at h
      cases h

theorem exists_stop_at {e : EvalError} (h : (run lookup code stack).result = .error e) :
    ∃ before t rest reached, code = before ++ t :: rest ∧
      (run lookup before stack).result = .ok reached ∧ Stop lookup t reached e := by
  induction code generalizing stack with
  | nil => cases h
  | cons t code ih =>
    rcases run_cons_cases lookup t code stack with ⟨after, hstep, hr⟩ | ⟨e', hstop, hr⟩
    · rw [hr] at h
      obtain ⟨before, u, rest, reached, rfl, hrun, hstop⟩ := ih h
      refine ⟨t :: before, u, rest, reached, rfl, ?_, hstop⟩
      rw [hstep.run_cons]
      exact hrun
    · rw [hr] at h
      cases h
      exact ⟨[], t, code, stack, rfl, rfl, hstop⟩

theorem exists_stop {e : EvalError} (h : (run lookup code stack).result = .error e) :
    ∃ t ∈ code, ∃ reached, Stop lookup t reached e := by
  obtain ⟨before, t, rest, reached, rfl, -, hstop⟩ := exists_stop_at h
  exact ⟨t, List.mem_append_right before List.mem_cons_self, reached, hstop⟩

theorem run_asked_initial (lookup : Lookup) (code : List Token) (stack : List Operand) :
    (run lookup code stack).asked <+: Token.references code := by
  induction code generalizing stack with
  | nil => exact List.prefix_rfl
  | cons t code ih =>
    have hsplit : Token.references (t :: code) = Token.references [t] ++ Token.references code :=
      Token.references_append [t] code
    rcases run_cons_cases lookup t code stack with ⟨after, -, hr⟩ | ⟨e, -, hr⟩
    · rw [hr, hsplit]
      exact (List.prefix_append_right_inj _).mpr (ih after)
    · rw [hr, hsplit]
      exact List.prefix_append _ _

theorem run_asked_of_ok (h : (run lookup code stack).result = .ok after) :
    (run lookup code stack).asked = Token.references code := by
  induction code generalizing stack with
  | nil => rfl
  | cons t code ih =>
    have hsplit : Token.references (t :: code) = Token.references [t] ++ Token.references code :=
      Token.references_append [t] code
    rcases run_cons_cases lookup t code stack with ⟨reached, -, hr⟩ | ⟨e, -, hr⟩
    · rw [hr] at h ⊢
      rw [hsplit, ← ih h]
    · rw [hr] at h
      cases h

theorem runOnStack_cases (lookup : Lookup) (code : List Token) :
    (∃ e, (run lookup code []).result = .error e ∧
      runOnStack lookup code = ⟨(run lookup code []).asked, .error e⟩) ∨
    ∃ stack, (run lookup code []).result = .ok stack ∧
      runOnStack lookup code = ⟨(run lookup code []).asked, finish stack⟩ := by
  unfold runOnStack
  cases h : (run lookup code []).result with
  | error e => exact .inl ⟨e, rfl, by simp [h, Except.bind]⟩
  | ok stack => exact .inr ⟨stack, rfl, by simp [h, Except.bind]⟩

theorem evaluateCode_cases (lookup : Lookup) (code : List Token) :
    (∃ t, code = [t] ∧ evaluateCode code lookup = runSingle lookup t) ∨
      evaluateCode code lookup = runOnStack lookup code := by
  unfold evaluateCode
  split
  · next t => exact .inl ⟨t, rfl, rfl⟩
  · exact .inr rfl

end FormulaTable.Formula
