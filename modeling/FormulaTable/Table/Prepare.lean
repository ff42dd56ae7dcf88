import FormulaTable.Journal.Notice
import FormulaTable.Table.State

/-! Preparing a table for a list of columns. A formula whose text has not changed keeps its
compiled form. -/

namespace FormulaTable

inductive ColumnEntry
  | column (c : Column)
  | fields (values : List (String × Cell))
  | unfit

inductive PrepareError
  | invalidColumn (name : String) (problems : List Schema.Problem)
  | formatNotText
  | namelessColumn (cause : CellError)
deriving DecidableEq, Repr

namespace Table

def reporter : String := "notegrid.fields.formula.FormulaColumnManager"

def compileFailed (column : String) (e : Formula.CompileError) : Journal.Notice where
  level := .warning
  reporter := reporter
  message := "Formula failed to compile"
  data := [("column", .text column), ("error_kind", .text (e.kind?.elim "" (·.code)))]
  caused := false

def readsItself (column : String) : Journal.Notice where
  level := .warning
  reporter := reporter
  message := "Formula references its own column"
  data := [("column", .text column)]
  caused := false

def selfReferenceMessage : String := "Formula cannot reference its own column"

def givenName (values : List (String × Cell)) : Except CellError String :=
  match values.lookup "name" with
  | some c => c.fullText
  | none => .ok ""

def readEntry : ColumnEntry → Except PrepareError Column
  | .column c => .ok c
  | .unfit => .error (.invalidColumn "" [⟨none, .notMapping⟩])
  | .fields values =>
    match Column.read values with
    | .ok c => .ok c
    | .error .formatNotText => .error .formatNotText
    | .error (.invalid problems) =>
      match givenName values with
      | .ok name => .error (.invalidColumn name problems)
      | .error cause => .error (.namelessColumn cause)

def displayOf? (c : Column) : Option Display :=
  match c.kind with
  | .date => some (.date (.ofText c.dateFormat))
  | .time => some (.time (.ofText c.timeFormat))
  | _ => none

def addDisplay (t : Table) (c : Column) : Table :=
  match displayOf? c with
  | some d => { t with displays := t.displays.set c.name d }
  | none => t

def addFormat (t : Table) (c : Column) : Table :=
  match c.numberFormat with
  | some .auto | none => t
  | some f => { t with formats := t.formats.set c.name f }

/-- The compiled form of a column's formula: an earlier one of the same text, or a new one. -/
def compileCached (earlier : Keyed Formula.Compiled) (name raw : String) :
    Except Formula.CompileError Formula.Compiled × List Journal.Notice :=
  let anew := (Formula.compile raw, Journal.ofCompilation (Formula.compile raw))
  match earlier.get? name with
  | some f => if f.raw = raw then (.ok f, []) else anew
  | none => anew

def addFormula (earlier : Keyed Formula.Compiled) (t : Table) (name raw : String) :
    Table × List Journal.Notice :=
  let t := { t with order := t.order ++ [name] }
  let (result, notices) := compileCached earlier name raw
  match result with
  | .error e =>
    ({ t with failures := t.failures.set name e.message }, notices ++ [compileFailed name e])
  | .ok f =>
    if f.references name then
      ({ t with failures := t.failures.set name selfReferenceMessage },
        notices ++ [readsItself name])
    else ({ t with compiled := t.compiled.set name f }, notices)

def addColumn (earlier : Keyed Formula.Compiled) (t : Table) (c : Column) :
    Table × List Journal.Notice :=
  let t := addFormat t c
  match c.trimmedFormula? with
  | none => (t, [])
  | some raw => addFormula earlier t c.name raw

def addColumns (earlier : Keyed Formula.Compiled) (t : Table) :
    List Column → Table × List Journal.Notice
  | [] => (t, [])
  | c :: rest =>
    let (t, notices) := addColumn earlier t c
    let (t, more) := addColumns earlier t rest
    (t, notices ++ more)

structure Preparation where
  table : Table
  notices : List Journal.Notice
  refusal : Option PrepareError

def prepare (t : Table) (entries : List ColumnEntry) : Preparation :=
  let fresh := Table.new t.options
  match entries.mapM readEntry with
  | .error e => ⟨fresh, [], some e⟩
  | .ok columns =>
    let (table, notices) := addColumns t.compiled (columns.foldl addDisplay fresh) columns
    ⟨table, notices, none⟩

end Table
end FormulaTable
