import FormulaTable.Cell.Basic
import FormulaTable.Formula.FaultKind
import FormulaTable.Formula.Token

/-! Why a text is not a formula. -/

namespace FormulaTable.Formula

inductive CompileError
  | emptyFormula
  | unexpectedChar (c : Char) (position : Nat)
  | lonePoint (position : Nat)
  | unmatchedBrace
  | emptyField
  | unmatchedParen
  | numberOutOfRange (literal : String)
  | unaryNotSupported (symbol : String)
  | unterminatedText
  | unknownOperator (symbol : String)
deriving DecidableEq, Repr

namespace CompileError

def kind? : CompileError → Option FaultKind
  | emptyFormula => some .emptyFormula
  | unexpectedChar .. | lonePoint _ => some .unexpectedChar
  | unmatchedBrace => some .unmatchedBrace
  | emptyField => some .emptyField
  | unmatchedParen => some .unmatchedParen
  | numberOutOfRange _ => some .numberOutOfRange
  | unaryNotSupported _ => some .unaryNotSupported
  | unterminatedText => some .unterminatedText
  | unknownOperator _ => none

def message (e : CompileError) : String :=
  match e with
  | unexpectedChar c _ =>
    FaultKind.unexpectedChar.message ++ ": '" ++ String.singleton c ++ "'"
  | _ =>
    match e.kind? with
    | some k => k.message
    | none => "Unknown operator"

def details : CompileError → List (String × Cell)
  | unexpectedChar c position =>
    [("char", .text (String.singleton c)), ("position", .whole position)]
  | lonePoint position => [("position", .whole position)]
  | numberOutOfRange literal => [("literal", .text literal)]
  | unaryNotSupported symbol => [("operator", .text symbol)]
  | _ => []

end CompileError
end FormulaTable.Formula
