import FormulaTable.Table.Compute

/-! A pass over the rows of a table. In a table with more rows than its limit no formula is
computed, and this is said once after every preparation. -/

namespace FormulaTable.Table

def isNoticeDue (t : Table) (rowCount : Nat) : Bool :=
  t.options.rowLimit < rowCount && !t.order.isEmpty && !t.noticed

def takeNotice (t : Table) (rowCount : Nat) : Table × Bool :=
  if t.isNoticeDue rowCount then ({ t with noticed := true }, true) else (t, false)

def limitExceeded (t : Table) (rowCount : Nat) : Journal.Notice where
  level := .info
  reporter := reporter
  message := "Formula row limit exceeded, formulas disabled"
  data := [("row_count", .whole rowCount), ("row_limit", .whole t.options.rowLimit)]
  caused := false

def visit (shower : Shower) (t : Table) (enabled : Bool) (rows : List Row) :
    List Nat → List Row × List Journal.Notice
  | [] => (rows, [])
  | i :: rest =>
    match rows[i]? with
    | none => visit shower t enabled rows rest
    | some row =>
      let r := t.apply shower row enabled
      let (rows, more) := visit shower t enabled (rows.set i r.row) rest
      (rows, r.notices ++ more)

structure Passage where
  table : Table
  rows : List Row
  notices : List Journal.Notice
  evaluated : Bool

def applyAll (shower : Shower) (t : Table) (rows : List Row) (picks : List Nat) : Passage :=
  let count := picks.length
  let enabled := count ≤ t.options.rowLimit
  let (next, due) := t.takeNotice count
  let (rows, notices) := visit shower next enabled rows picks
  ⟨next, rows, (if due then [t.limitExceeded count] else []) ++ notices, enabled⟩

end FormulaTable.Table
