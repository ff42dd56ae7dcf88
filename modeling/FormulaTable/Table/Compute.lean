import FormulaTable.Formula.Evaluation
import FormulaTable.Journal.Notice
import FormulaTable.Table.Prepare

/-! Computing the formula columns of a row. Every formula column writes its cell and, under the
column's tooltip key, an empty text or the reason why it has no value. -/

namespace FormulaTable.Table

abbrev Shower := Display → Cell → Option String

def standardShower : Shower := fun d c => some (d.showCell c)

def displayFailed (column : String) : Journal.Notice where
  level := .debug
  reporter := reporter
  message := "Display formatter failed"
  data := [("column", .text column)]
  caused := true

def rawField (row : Row) (name : String) : Cell := (row.get? name).getD .empty

/-- A field as formulas see it: as its column shows it, or as it is where that fails. -/
def seenField (shower : Shower) (t : Table) (row : Row) (name : String) : Cell :=
  let c := rawField row name
  match t.displays.get? name with
  | none => c
  | some d => (shower d c).elim c .text

def failsToShow (shower : Shower) (t : Table) (row : Row) (name : String) : Bool :=
  match t.displays.get? name with
  | none => false
  | some d => (shower d (rawField row name)).isNone

def evaluateOn (shower : Shower) (t : Table) (f : Formula.Compiled) (row : Row) :
    Except Formula.EvalError Formula.Value × List Journal.Notice :=
  let r := Formula.evaluate f fun name => some (seenField shower t row name)
  let unshown := r.asked.filter (failsToShow shower t row)
  (r.result, unshown.map displayFailed ++ Journal.ofEvaluation f r)

def cellText (format : Option NumberFormat) (v : Formula.Value) : String :=
  match format, v with
  | some f, .number x => (f.text? x).getD v.shown
  | _, _ => v.shown

def write (t : Table) (row : Row) (name cell tooltip : String) : Row :=
  (row.set name (.text cell)).set (t.tooltipKey name) (.text tooltip)

def parseFailedText (message : String) : String := "Formula parse failed: " ++ message

def errorText (e : Formula.EvalError) : String := "Formula error: " ++ e.message

def computeColumn (shower : Shower) (t : Table) (row : Row) (name : String) :
    Row × List Journal.Notice :=
  match t.failures.get? name with
  | some message => (t.write row name t.options.errorValue (parseFailedText message), [])
  | none =>
    match t.compiled.get? name with
    | none => (row, [])
    | some f =>
      match evaluateOn shower t f row with
      | (.error e, notices) => (t.write row name t.options.errorValue (errorText e), notices)
      | (.ok v, notices) => (t.write row name (cellText (t.formats.get? name) v) "", notices)

def computeColumns (shower : Shower) (t : Table) (row : Row) :
    List String → Row × List Journal.Notice
  | [] => (row, [])
  | name :: rest =>
    let (row, notices) := computeColumn shower t row name
    let (row, more) := computeColumns shower t row rest
    (row, notices ++ more)

def compute (shower : Shower) (t : Table) (row : Row) : Row × List Journal.Notice :=
  computeColumns shower t row t.order

def disabledText (t : Table) : Except CellError String := do
  let limit ← Cell.wholeText t.options.rowLimit
  .ok ("Formulas disabled above " ++ String.ofList limit ++ " rows")

/-- Marks the given formula columns of a row as not computed. A column that failed to compile
shows its error all the same. A row limit without a text stops at the first other column. -/
def disableColumns (t : Table) (row : Row) : List String → Row × Option CellError
  | [] => (row, none)
  | name :: rest =>
    match t.failures.get? name with
    | some message =>
      disableColumns t (t.write row name t.options.errorValue (parseFailedText message)) rest
    | none =>
      match t.disabledText with
      | .ok s => disableColumns t (row.set (t.tooltipKey name) (.text s)) rest
      | .error e => (row, some e)

structure Rendering where
  row : Row
  notices : List Journal.Notice
  fault : Option CellError

def apply (shower : Shower) (t : Table) (row : Row) (enabled : Bool) : Rendering :=
  if enabled then
    let (row, notices) := compute shower t row
    ⟨row, notices, none⟩
  else
    let (row, fault) := disableColumns t row t.order
    ⟨row, [], fault⟩

end FormulaTable.Table
