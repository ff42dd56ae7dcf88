import FormulaTable.Cell.Basic
import FormulaTable.Formula.FaultKind

/-! The form in which a failure is reported: a code for programs, a message for people, and
named details. -/

namespace FormulaTable

structure Diagnostic where
  code : String
  message : String
  details : List (String × Cell)

namespace Diagnostic

def defaultCode : String := "NoteGridException"

def orElse (s : Option String) (fallback : String) : String :=
  match s with
  | some s => if s.isEmpty then fallback else s
  | none => fallback

def general (message : String) (code : Option String) (details : List (String × Cell)) :
    Diagnostic :=
  ⟨orElse code defaultCode, message, details⟩

def ofFault (kind : Formula.FaultKind) (message : Option String)
    (details : List (String × Cell)) : Diagnostic :=
  ⟨kind.code, orElse message kind.message, details⟩

def columnCode : String := "INVALID_COLUMN_CONFIG"

def ofColumn (name reason : String) : Diagnostic :=
  ⟨columnCode, "Invalid configuration for column '" ++ name ++ "': " ++ reason,
    [("column_name", .text name)]⟩

end Diagnostic
end FormulaTable
