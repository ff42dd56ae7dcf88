import Mathlib
import FormulaTable.Formula.Evaluation
import FormulaTable.Proofs.Formula.Tree

/-!
# The meaning of a tree

A tree is evaluated from its leaves: the left operand, then the right one, then the operator. The
stack machine does the same on the tree's tokens in postfix order, with the same questions to the
fields in the same order and the same first error.
-/

namespace FormulaTable.Formula

namespace Run

variable {α β : Type}

def ofExcept (r : Except EvalError α) : Run α := ⟨[], r⟩

def andThen (r : Run α) (next : α → Run β) : Run β :=
  match r.result with
  | .ok a => ⟨r.asked ++ (next a).asked, (next a).result⟩
  | .error e => ⟨r.asked, .error e⟩

instance : Monad Run where
  pure a := ⟨[], .ok a⟩
  bind := andThen

theorem bind_ok (asked : List String) (a : α) (next : α → Run β) :
    (⟨asked, .ok a⟩ : Run α) >>= next = ⟨asked ++ (next a).asked, (next a).result⟩ := rfl

theorem bind_error (asked : List String) (e : EvalError) (next : α → Run β) :
    (⟨asked, .error e⟩ : Run α) >>= next = ⟨asked, .error e⟩ := rfl

theorem map_error (asked : List String) (e : EvalError) (f : α → β) :
    f <$> (⟨asked, .error e⟩ : Run α) = ⟨asked, .error e⟩ := rfl

theorem map_ok (asked : List String) (a : α) (f : α → β) :
    f <$> (⟨asked, .ok a⟩ : Run α) = ⟨asked, .ok (f a)⟩ :=
  congrArg (fun names => Run.mk names (.ok (f a))) (List.append_nil asked)

instance : LawfulMonad Run := .mk' _
  (fun r => by
    obtain ⟨asked, e | a⟩ := r
    · rfl
    · exact congrArg (fun names => Run.mk names (.ok a)) (List.append_nil asked))
  (fun a next => rfl)
  (fun r next more => by
    obtain ⟨asked, e | a⟩ := r
    · rfl
    · simp only [bind_ok]
      rcases next a with ⟨asked', e | b⟩
      · simp [bind_error]
      · simp [bind_ok])

theorem after_eq (name : String) (r : Run α) :
    r.after name = (⟨[name], .ok ()⟩ : Run Unit) >>= fun _ => r := rfl

def ask (lookup : Lookup) (name : String) : Run Cell :=
  ⟨[name], (lookup name).elim (.error (.lookupFailed name)) .ok⟩

end Run

def Operator.onDoubles : Operator → Float → Float → Float
  | add => (· + ·)
  | sub => (· - ·)
  | mul => (· * ·)
  | div => (· / ·)

namespace Tree

def numberOf (a : Operand) : Except EvalError Float := a.toNumber.mapError .unusableOperand

def textOf (a : Operand) : Except EvalError String := a.toText.mapError .unusableOperand

/-- The value of `a op b`. A sum with a text on either side is the text of both; in every other
case both sides count as numbers. A divisor next to zero is an error, whatever the dividend. -/
def combine : Operator → Operand → Operand → Except EvalError Operand
  | .add, .text s, b => do
    let t ← textOf b
    .ok (.text (s ++ t))
  | .add, a, .text t => do
    let s ← textOf a
    .ok (.text (s ++ t))
  | .div, a, b => do
    let y ← numberOf b
    if y.abs < leastDivisor then .error .divisionByZero
    else do
      let x ← numberOf a
      .ok (.number (x / y))
  | op, a, b => do
    let x ← numberOf a
    let y ← numberOf b
    .ok (.number (op.onDoubles x y))

def eval (lookup : Lookup) : Tree → Run Operand
  | number x => pure (.number x)
  | text s => pure (.text s)
  | field name => do
    let c ← Run.ask lookup name
    pure (.field c)
  | binary op l r => do
    let a ← l.eval lookup
    let b ← r.eval lookup
    Run.ofExcept (combine op a b)

/-- A result must be a finite number or a text; a field counts as its text. -/
def conclude : Operand → Except EvalError Value
  | .number x => if x.isFinite then .ok (.number x) else .error .notFinite
  | .text s => .ok (.text s)
  | .field c => (c.toText.map Value.text).mapError .unshowable

def value (lookup : Lookup) (e : Tree) : Run Value := do
  let v ← e.eval lookup
  Run.ofExcept (conclude v)

end Tree

theorem onNumbers_mapError (f : Float → Float → Float) (a b : Operand) :
    (Operator.onNumbers f a b).mapError .unusableOperand = (do
      let x ← Tree.numberOf a
      let y ← Tree.numberOf b
      .ok (.number (f x y))) := by
  cases ha : a.toNumber <;> cases hb : b.toNumber <;>
    simp [Operator.onNumbers, Tree.numberOf, ha, hb, Except.mapError, bind, Except.bind]

theorem concat_mapError (a b : Operand) :
    (Operator.concat a b).mapError .unusableOperand = (do
      let s ← Tree.textOf a
      let t ← Tree.textOf b
      .ok (.text (s ++ t))) := by
  cases ha : a.toText <;> cases hb : b.toText <;>
    simp [Operator.concat, Tree.textOf, ha, hb, Except.mapError, bind, Except.bind]

theorem Operator.apply_eq_combine (op : Operator) (a b : Operand) :
    op.apply a b = Tree.combine op a b := by
  cases op with
  | add =>
    cases a with
    | text s => exact concat_mapError (.text s) b
    | number x =>
      cases b with
      | text t => exact concat_mapError (.number x) (.text t)
      | number y => exact onNumbers_mapError _ (.number x) (.number y)
      | field d => exact onNumbers_mapError _ (.number x) (.field d)
    | field c =>
      cases b with
      | text t => exact concat_mapError (.field c) (.text t)
      | number y => exact onNumbers_mapError _ (.field c) (.number y)
      | field d => exact onNumbers_mapError _ (.field c) (.field d)
  | sub => exact onNumbers_mapError _ a b
  | mul => exact onNumbers_mapError _ a b
  | div => rfl

theorem run_append (lookup : Lookup) (first second : List Token) (stack : List Operand) :
    run lookup (first ++ second) stack = run lookup first stack >>= run lookup second := by
  induction first generalizing stack with
  | nil => rfl
  | cons t first ih =>
    cases t with
    | number x => simp [run, ih]
    | text s => simp [run, ih]
    | field name =>
      cases h : lookup name with
      | none => simp [run, h, Run.bind_error]
      | some c => simp [run, h, ih, Run.after_eq]
    | operator op =>
      match stack with
      | [] => simp [run, Run.bind_error]
      | [a] => simp [run, Run.bind_error]
      | b :: a :: below =>
        cases h : op.apply a b with
        | error e => simp [run, h, Run.bind_error]
        | ok v => simp [run, h, ih]
    | unknown symbol =>
      match stack with
      | [] => simp [run, Run.bind_error]
      | [a] => simp [run, Run.bind_error]
      | b :: a :: below => simp [run, Run.bind_error]
    | left => simp [run, ih]
    | right => simp [run, ih]

theorem run_postorder (lookup : Lookup) (e : Tree) (stack : List Operand) :
    run lookup e.postorder stack = e.eval lookup >>= fun v => pure (v :: stack) := by
  induction e generalizing stack with
  | number x => rfl
  | text s => rfl
  | field name =>
    cases h : lookup name with
    | none => simp [Tree.postorder, run, Tree.eval, Run.ask, h, Run.map_error]
    | some c => simp [Tree.postorder, run, Tree.eval, Run.ask, h, Run.after_eq, Run.bind_ok,
        Run.map_ok]
  | binary op l r ihl ihr =>
    have hop (a b : Operand) : run lookup [.operator op] (b :: a :: stack) =
        Run.ofExcept (Tree.combine op a b) >>= fun v => pure (v :: stack) := by
      rw [← Operator.apply_eq_combine]
      cases h : op.apply a b with
      | error e => simp [run, h, Run.ofExcept, Run.map_error]
      | ok v => simp [run, h, Run.ofExcept, Run.map_ok]
    simp [Tree.postorder, run_append, ihl, ihr, hop, Tree.eval]

theorem finish_singleton (v : Operand) : finish [v] = Tree.conclude v := by cases v <;> rfl

theorem runOnStack_eq (lookup : Lookup) (code : List Token) :
    runOnStack lookup code = run lookup code [] >>= fun stack => Run.ofExcept (finish stack) := by
  rcases h : run lookup code [] with ⟨asked, e | stack⟩
  · simp [runOnStack, h, Run.bind_error, Except.bind]
  · simp [runOnStack, h, Run.bind_ok, Except.bind, Run.ofExcept]

theorem runOnStack_postorder (lookup : Lookup) (e : Tree) :
    runOnStack lookup e.postorder = e.value lookup := by
  simp [runOnStack_eq, run_postorder, finish_singleton, Tree.value]

theorem Tree.postorder_ne_nil (e : Tree) : e.postorder ≠ [] := by
  cases e <;> simp [postorder]

theorem evaluateCode_binary (lookup : Lookup) (op : Operator) (l r : Tree) :
    evaluateCode (Tree.binary op l r).postorder lookup = (Tree.binary op l r).value lookup := by
  rw [← runOnStack_postorder]
  rcases hc : (Tree.binary op l r).postorder with _ | ⟨t, _ | ⟨u, ts⟩⟩
  · rfl
  · have hl := List.length_pos_iff.mpr l.postorder_ne_nil
    have hr := List.length_pos_iff.mpr r.postorder_ne_nil
    have hlen := congrArg List.length hc
    simp only [Tree.postorder, List.length_append, List.length_singleton] at hlen
    omega
  · rfl

end FormulaTable.Formula
