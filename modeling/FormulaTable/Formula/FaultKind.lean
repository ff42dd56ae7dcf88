/-! The categories of formula faults, each with its code and its message. -/

namespace FormulaTable.Formula

inductive FaultKind
  | emptyFormula
  | unexpectedChar
  | unmatchedBrace
  | emptyField
  | unmatchedParen
  | numberOutOfRange
  | unaryNotSupported
  | unterminatedText
  | stackUnderflow
  | divisionByZero
  | notFinite
  | lookupFailed
  | unusableValue
deriving DecidableEq, Repr

namespace FaultKind

def all : List FaultKind :=
  [emptyFormula, unexpectedChar, unmatchedBrace, emptyField, unmatchedParen, numberOutOfRange,
    unaryNotSupported, unterminatedText, stackUnderflow, divisionByZero, notFinite, lookupFailed,
    unusableValue]

def code : FaultKind → String
  | emptyFormula => "EMPTY_FORMULA"
  | unexpectedChar => "UNEXPECTED_CHAR"
  | unmatchedBrace => "UNMATCHED_BRACE"
  | emptyField => "EMPTY_FIELD"
  | unmatchedParen => "UNMATCHED_PAREN"
  | numberOutOfRange => "NUMERIC_OUT_OF_RANGE"
  | unaryNotSupported => "UNARY_NOT_SUPPORTED"
  | unterminatedText => "UNTERMINATED_STRING"
  | stackUnderflow => "STACK_UNDERFLOW"
  | divisionByZero => "DIVIDE_BY_ZERO"
  | notFinite => "NON_FINITE_RESULT"
  | lookupFailed => "FIELD_LOOKUP_FAILED"
  | unusableValue => "INVALID_FIELD_VALUE"

def message : FaultKind → String
  | emptyFormula => "Formula is empty"
  | unexpectedChar => "Unexpected character in formula"
  | unmatchedBrace => "Missing closing '\x7d' for field reference"
  | emptyField => "Field reference is empty"
  | unmatchedParen => "Unmatched parenthesis"
  | numberOutOfRange => "Number is out of range"
  | unaryNotSupported => "Only '+' and '-' can be used as unary operators"
  | unterminatedText => "String literal is missing its closing quote"
  | stackUnderflow => "Formula is incomplete or has too many operands"
  | divisionByZero => "Division by zero"
  | notFinite => "Formula result is not a finite number"
  | lookupFailed => "Field value could not be read"
  | unusableValue => "Field value cannot be used in a formula"

theorem mem_all (k : FaultKind) : k ∈ all := by cases k <;> decide

def ofCode? (s : String) : Option FaultKind := all.find? (·.code == s)

theorem ofCode?_code (k : FaultKind) : ofCode? k.code = some k := by cases k <;> decide

end FaultKind
end FormulaTable.Formula
