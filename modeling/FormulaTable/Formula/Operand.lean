import FormulaTable.Cell.Coercion
import FormulaTable.Formula.FaultKind
import FormulaTable.Formula.Token

/-! The values of a running formula, and its operators on them. -/

namespace FormulaTable.Formula

/-- A value on the stack. A field keeps its cell until an operator asks for a number or a text. -/
inductive Operand
  | number (x : Float)
  | text (s : String)
  | field (c : Cell)

namespace Operand

def toNumber : Operand → Except CellError Float
  | number x => .ok x
  | text s => .ok (Cell.numberOfText s)
  | field c => c.toNumber

def toText : Operand → Except CellError String
  | number x => .ok (String.ofList (Double.canonicalText x))
  | text s => .ok s
  | field c => c.toText

def isText : Operand → Bool
  | text _ => true
  | _ => false

end Operand

inductive EvalError
  | stackUnderflow
  | divisionByZero
  | notFinite
  | lookupFailed (name : String)
  | unusableOperand (cause : CellError)
  | unshowable (cause : CellError)
  | unknownOperator (symbol : String)
deriving DecidableEq, Repr

namespace EvalError

def kind : EvalError → FaultKind
  | stackUnderflow => .stackUnderflow
  | divisionByZero => .divisionByZero
  | notFinite => .notFinite
  | lookupFailed _ => .lookupFailed
  | unusableOperand _ | unshowable _ => .unusableValue
  | unknownOperator _ => .unexpectedChar

def message (e : EvalError) : String := e.kind.message

def hasCause : EvalError → Bool
  | lookupFailed _ | unusableOperand _ | unshowable _ => true
  | _ => false

end EvalError

def leastDivisor : Float := Float.ofBits 0x3CB0000000000000

namespace Operator

def onNumbers (f : Float → Float → Float) (a b : Operand) : Except CellError Operand := do
  let x ← a.toNumber
  let y ← b.toNumber
  .ok (.number (f x y))

def concat (a b : Operand) : Except CellError Operand := do
  let s ← a.toText
  let t ← b.toText
  .ok (.text (s ++ t))

def divide (a b : Operand) : Except EvalError Operand := do
  let y ← b.toNumber.mapError .unusableOperand
  if y.abs < leastDivisor then .error .divisionByZero
  else
    let x ← a.toNumber.mapError .unusableOperand
    .ok (.number (x / y))

/-- The value of `a op b`. A sum with a text on either side joins the texts of both. -/
def apply (op : Operator) (a b : Operand) : Except EvalError Operand :=
  match op with
  | add =>
    (if a.isText || b.isText then concat a b else onNumbers (· + ·) a b).mapError .unusableOperand
  | sub => (onNumbers (· - ·) a b).mapError .unusableOperand
  | mul => (onNumbers (· * ·) a b).mapError .unusableOperand
  | div => divide a b

end Operator
end FormulaTable.Formula
