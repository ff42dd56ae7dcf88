import FormulaTable.Column
import FormulaTable.Formula.Compiled
import FormulaTable.Keyed
import FormulaTable.Options

/-! What a table knows about its formula columns. -/

namespace FormulaTable

inductive Display
  | date (style : DateStyle)
  | time (style : TimeStyle)
deriving DecidableEq, Repr

def Display.showCell (d : Display) : Cell → String
  | .text s =>
    match d with
    | date style => style.showText s
    | time style => style.showText s
  | _ => ""

structure Table where
  options : Options
  compiled : Keyed Formula.Compiled
  failures : Keyed String
  order : List String
  formats : Keyed NumberFormat
  displays : Keyed Display
  /-- It has been said that the table is too long. -/
  noticed : Bool
deriving DecidableEq

namespace Table

def new (options : Options) : Table := ⟨options, .empty, .empty, [], .empty, .empty, false⟩

def isFormulaColumn (t : Table) (name : String) : Bool :=
  t.compiled.contains name || t.failures.contains name

/-- The key under which a row holds the diagnostic text of a formula column. -/
def tooltipKey (t : Table) (name : String) : String := t.options.tooltipPrefix ++ name

def dependencies (t : Table) (name : String) : List String :=
  match t.compiled.get? name with
  | some f => f.dependencies
  | none => []

def reusedFrom (earlier t : Table) : List String :=
  t.order.filter fun name =>
    match earlier.compiled.get? name, t.compiled.get? name with
    | some f, some g => f.raw == g.raw
    | _, _ => false

end Table
end FormulaTable
