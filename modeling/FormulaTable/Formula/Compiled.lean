import FormulaTable.Formula.Postfix
import FormulaTable.Formula.Scan

/-! A compiled formula: its text as given, its tokens in postfix order, and the fields that it
reads. -/

namespace FormulaTable.Formula

def straighten (c : Char) : Char := if c = '“' ∨ c = '”' then '"' else c

def normalize (raw : String) : String :=
  let body :=
    match Text.trimList raw.toList with
    | '=' :: rest => Text.trimList rest
    | s => s
  String.ofList (body.map straighten)

structure Compiled where
  raw : String
  code : List Token
  dependencies : List String
deriving DecidableEq

def Compiled.references (f : Compiled) (name : String) : Bool := f.dependencies.contains name

def compile (raw : String) : Except CompileError Compiled :=
  let body := normalize raw
  if body.isEmpty then .error .emptyFormula
  else do
    let ts ← tokens body
    let code ← postfixOf ts
    .ok ⟨raw, code, Token.fields ts⟩

def fieldsOf (raw : String) : List String :=
  match compile raw with
  | .ok f => f.dependencies
  | .error _ => []

end FormulaTable.Formula
