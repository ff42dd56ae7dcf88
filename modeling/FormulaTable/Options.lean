import FormulaTable.Schema.Whole
import FormulaTable.Schema.Word

/-! Options of a table. -/

namespace FormulaTable

structure Options where
  rowLimit : Nat
  errorValue : String
  /-- Precedes the column's name in the key of its tooltip. -/
  tooltipPrefix : String
deriving DecidableEq, Repr

namespace Options
open Schema

def standard : Options := ⟨5000, "#ERR", "__tlbFormulaTooltip__"⟩

def read (fields : List (String × Cell)) : Except (List Problem) Options :=
  let errorValue := field fields "error_value" standard.errorValue readFilled
  let rowLimit := field fields "row_limit" standard.rowLimit readPositive
  let tooltipPrefix := field fields "tooltip_prefix" standard.tooltipPrefix readText
  match errorValue, rowLimit, tooltipPrefix with
  | .ok e, .ok r, .ok t => .ok ⟨r, e, t⟩
  | e, r, t =>
    .error (problemOf "error_value" e ++ problemOf "row_limit" r ++ problemOf "tooltip_prefix" t)

end Options
end FormulaTable
