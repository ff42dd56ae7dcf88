import FormulaTable.Formula.Evaluation

/-! What the library reports about its work: notices with a level, the name of the reporter, a
fixed message and named data. -/

namespace FormulaTable.Journal

inductive Level
  | debug
  | info
  | warning
  | error
  | critical
deriving DecidableEq, Repr

namespace Level

def name : Level → String
  | debug => "DEBUG"
  | info => "INFO"
  | warning => "WARNING"
  | error => "ERROR"
  | critical => "CRITICAL"

def number : Level → Nat
  | debug => 10
  | info => 20
  | warning => 30
  | error => 40
  | critical => 50

end Level

structure Notice where
  level : Level
  reporter : String
  message : String
  data : List (String × Cell)
  /-- The notice goes back to an error that was caught. -/
  caused : Bool

def compiled (f : Formula.Compiled) : Notice where
  level := .debug
  reporter := "notegrid.formula.compiler"
  message := "Compiled formula"
  data :=
    [("formula", .text f.raw), ("rpn_length", .whole f.code.length),
      ("dependencies", .list (f.dependencies.map .text))]
  caused := false

def evaluationFailed (f : Formula.Compiled) (e : Formula.EvalError) : Notice where
  level := .debug
  reporter := "notegrid.formula.evaluator"
  message := "Formula evaluation failed"
  data := [("formula", .text f.raw), ("error_kind", .text e.kind.code)]
  caused := e.hasCause

def ofCompilation : Except Formula.CompileError Formula.Compiled → List Notice
  | .ok f => [compiled f]
  | .error _ => []

def ofEvaluation (f : Formula.Compiled) (r : Formula.Run Formula.Value) : List Notice :=
  match r.result with
  | .ok _ => []
  | .error e => [evaluationFailed f e]

end FormulaTable.Journal
