/-! What is wrong with the fields of a configuration. -/

namespace FormulaTable.Schema

inductive Cause
  | missing
  | notText
  | tooShort
  | notListed
  | refused
  | notWhole
  | unreadableWhole
  | wholeTooLong
  | fractional
  | notFinite
  | notGreater
  | notFlag
  | unreadableFlag
  | notMapping
deriving DecidableEq, Repr

def Cause.code : Cause → String
  | missing => "missing"
  | notText => "string_type"
  | tooShort => "string_too_short"
  | notListed => "literal_error"
  | refused => "value_error"
  | notWhole => "int_type"
  | unreadableWhole => "int_parsing"
  | wholeTooLong => "int_parsing_size"
  | fractional => "int_from_float"
  | notFinite => "finite_number"
  | notGreater => "greater_than"
  | notFlag => "bool_type"
  | unreadableFlag => "bool_parsing"
  | notMapping => "model_type"

structure Problem where
  field : Option String
  cause : Cause
deriving DecidableEq, Repr

def problemOf {α : Type} (field : String) : Except Cause α → List Problem
  | .ok _ => []
  | .error cause => [⟨some field, cause⟩]

theorem problemOf_eq_nil_iff {α : Type} {field : String} {r : Except Cause α} :
    problemOf field r = [] ↔ ∃ a, r = .ok a := by
  cases r <;> simp [problemOf]

end FormulaTable.Schema
