import FormulaTable.Calendar.TimeStyle
import FormulaTable.NumberFormat
import FormulaTable.Schema.Word

/-! The configuration of one column. -/

namespace FormulaTable

inductive ColumnKind
  | text
  | date
  | time
  | formula
deriving DecidableEq, Repr

namespace ColumnKind

def all : List ColumnKind := [text, date, time, formula]

def name : ColumnKind → String
  | text => "text"
  | date => "date"
  | time => "time"
  | formula => "formula"

def named? (s : String) : Option ColumnKind := all.find? (·.name == s)

end ColumnKind

structure Column where
  name : String
  kind : ColumnKind
  formula : Option String
  numberFormat : Option NumberFormat
  dateFormat : Option String
  timeFormat : Option String
deriving DecidableEq, Repr

inductive ColumnError
  | invalid (problems : List Schema.Problem)
  | formatNotText
deriving DecidableEq, Repr

namespace Column
open Schema

def readName : Cell → Except Cause String
  | .text s => if (Text.trim s).isEmpty then .error .tooShort else .ok (Text.trim s)
  | _ => .error .notText

def readKind : Cell → Except Cause ColumnKind
  | .text s =>
    match ColumnKind.named? s with
    | some k => .ok k
    | none => .error .notListed
  | _ => .error .notListed

def readFormat : Cell → Except Cause (Option NumberFormat)
  | .empty => .ok none
  | .text s =>
    if (Text.trim s).isEmpty then .ok none
    else
      match NumberFormat.ofText? s with
      | some f => .ok (some f)
      | none => .error .refused
  | _ => .error .refused

def isFormatNotText : Cell → Bool
  | .text _ => false
  | c => !c.isFalsy

def read (fields : List (String × Cell)) : Except ColumnError Column :=
  match fields.lookup "formula_format" with
  | some c => if isFormatNotText c then .error .formatNotText else readFields fields
  | none => readFields fields
where
  readFields (fields : List (String × Cell)) : Except ColumnError Column :=
    let dateFormat := field fields "date_format" none readOptionalText
    let formula := field fields "formula" none readOptionalText
    let numberFormat := field fields "formula_format" none readFormat
    let name := (fields.lookup "name").elim (.error .missing) readName
    let timeFormat := field fields "time_format" none readOptionalText
    let kind := field fields "type" .text readKind
    match dateFormat, formula, numberFormat, name, timeFormat, kind with
    | .ok d, .ok f, .ok nf, .ok n, .ok t, .ok k => .ok ⟨n, k, f, nf, d, t⟩
    | d, f, nf, n, t, k =>
      .error (.invalid (problemOf "date_format" d ++ problemOf "formula" f ++
        problemOf "formula_format" nf ++ problemOf "name" n ++ problemOf "time_format" t ++
        problemOf "type" k))

def trimmedFormula? (c : Column) : Option String :=
  match c.formula with
  | none => none
  | some s => if (Text.trim s).isEmpty then none else some (Text.trim s)

end Column
end FormulaTable
