import FormulaTable.Formula.CompileError

/-! Tokens in postfix order. Operators of equal precedence group to the left, and a sign
stands for a subtraction from zero or an addition to it. -/

namespace FormulaTable.Formula

inductive Pending
  | operator (op : Operator)
  | paren
deriving DecidableEq, Repr

/-- The waiting operators that bind at least as tightly as `precedence`, up to a parenthesis. -/
def releaseTo (precedence : Nat) : List Pending → List Token × List Pending
  | .operator op :: rest =>
    if op.precedence < precedence then ([], .operator op :: rest)
    else ((.operator op :: (releaseTo precedence rest).1), (releaseTo precedence rest).2)
  | waiting => ([], waiting)

def releaseParen : List Pending → Except CompileError (List Token × List Pending)
  | [] => .error .unmatchedParen
  | .paren :: rest => .ok ([], rest)
  | .operator op :: rest =>
    (releaseParen rest).map fun (out, waiting) => (.operator op :: out, waiting)

def releaseAll : List Pending → Except CompileError (List Token)
  | [] => .ok []
  | .paren :: _ => .error .unmatchedParen
  | .operator op :: rest => (releaseAll rest).map (.operator op :: ·)

/-- The output for the remaining tokens; `operandDue` where a sign may stand. -/
def reorder (waiting : List Pending) (operandDue : Bool) :
    List Token → Except CompileError (List Token)
  | [] => releaseAll waiting
  | .left :: rest => reorder (.paren :: waiting) true rest
  | .right :: rest => do
    let (out, waiting) ← releaseParen waiting
    let tail ← reorder waiting false rest
    .ok (out ++ tail)
  | .operator op :: rest =>
    if operandDue ∧ !op.isSign then .error (.unaryNotSupported (String.singleton op.symbol))
    else do
      let (out, waiting) := releaseTo op.precedence waiting
      let tail ← reorder (.operator op :: waiting) true rest
      .ok ((if operandDue then [.number 0] else []) ++ out ++ tail)
  | .unknown symbol :: _ =>
    if operandDue then .error (.unaryNotSupported symbol) else .error (.unknownOperator symbol)
  | token :: rest => do
    let tail ← reorder waiting false rest
    .ok (token :: tail)

def postfixOf (ts : List Token) : Except CompileError (List Token) := reorder [] true ts

end FormulaTable.Formula
