import FormulaTable.Formula.Compiled
import FormulaTable.Formula.Operand

/-! Running a formula in postfix order on the fields of a row. -/

namespace FormulaTable.Formula

/-- How a formula gets at the fields: the cell under a name, or no answer at all. -/
abbrev Lookup := String → Option Cell

structure Run (α : Type) where
  asked : List String
  result : Except EvalError α

def Run.after {α : Type} (name : String) (r : Run α) : Run α := ⟨name :: r.asked, r.result⟩

def run (lookup : Lookup) : List Token → List Operand → Run (List Operand)
  | [], stack => ⟨[], .ok stack⟩
  | .number x :: rest, stack => run lookup rest (.number x :: stack)
  | .text s :: rest, stack => run lookup rest (.text s :: stack)
  | .field name :: rest, stack =>
    match lookup name with
    | some c => (run lookup rest (.field c :: stack)).after name
    | none => ⟨[name], .error (.lookupFailed name)⟩
  | .operator op :: rest, stack =>
    match stack with
    | b :: a :: below =>
      match op.apply a b with
      | .ok v => run lookup rest (v :: below)
      | .error e => ⟨[], .error e⟩
    | _ => ⟨[], .error .stackUnderflow⟩
  | .unknown symbol :: _, stack =>
    match stack with
    | _ :: _ :: _ => ⟨[], .error (.unknownOperator symbol)⟩
    | _ => ⟨[], .error .stackUnderflow⟩
  | .left :: rest, stack => run lookup rest stack
  | .right :: rest, stack => run lookup rest stack

inductive Value
  | number (x : Float)
  | text (s : String)
deriving DecidableEq

def Value.shown : Value → String
  | number x => String.ofList (Double.canonicalText x)
  | text s => s

def finish : List Operand → Except EvalError Value
  | [.number x] => if x.isFinite then .ok (.number x) else .error .notFinite
  | [.text s] => .ok (.text s)
  | [.field c] => (c.toText.map Value.text).mapError .unshowable
  | _ => .error .stackUnderflow

def runSingle (lookup : Lookup) : Token → Run Value
  | .number x => ⟨[], .ok (.number x)⟩
  | .text s => ⟨[], .ok (.text s)⟩
  | .field name =>
    match lookup name with
    | some c => ⟨[name], (c.toKeptText.map Value.text).mapError .unshowable⟩
    | none => ⟨[name], .error (.lookupFailed name)⟩
  | _ => ⟨[], .error .stackUnderflow⟩

def runOnStack (lookup : Lookup) (code : List Token) : Run Value :=
  let r := run lookup code []
  ⟨r.asked, r.result.bind finish⟩

def evaluateCode (code : List Token) (lookup : Lookup) : Run Value :=
  match code with
  | [token] => runSingle lookup token
  | _ => runOnStack lookup code

def evaluate (f : Compiled) (lookup : Lookup) : Run Value := evaluateCode f.code lookup

inductive OutcomeKind
  | number
  | text
deriving DecidableEq, Repr

structure Outcome where
  value : String
  kind : OutcomeKind
  number : Option Float
  error : Option String
  errorKind : Option FaultKind
deriving DecidableEq

def errorMarker : String := "#ERR"

namespace Outcome

def ofResult : Except EvalError Value → Outcome
  | .ok (.number x) => ⟨(Value.number x).shown, .number, some x, none, none⟩
  | .ok (.text s) => ⟨s, .text, none, none, none⟩
  | .error e => ⟨errorMarker, .text, none, some e.message, some e.kind⟩

def succeeded (o : Outcome) : Bool := o.error.isNone

theorem succeeded_ofResult {r : Except EvalError Value} :
    (ofResult r).succeeded = true ↔ ∃ v, r = .ok v := by
  rcases r with e | (x | s) <;> simp [ofResult, succeeded]

end Outcome
end FormulaTable.Formula
