import FormulaTable.Journal.ConsoleLine
import FormulaTable.Journal.JsonLine
import FormulaTable.Journal.Notice
import FormulaTable.Text.Letter

/-! Setting up a log: which records it takes and in which form it writes them. -/

namespace FormulaTable.Journal

def levelNumber? (name : String) : Option Nat :=
  [("CRITICAL", 50), ("FATAL", 50), ("ERROR", 40), ("WARN", 30), ("WARNING", 30), ("INFO", 20),
    ("DEBUG", 10), ("NOTSET", 0)].lookup name

inductive Form
  | json
  | console
deriving DecidableEq, Repr

structure Setup where
  level : Nat
  form : Form
deriving DecidableEq, Repr

namespace Setup

def levelName (asked : Option String) (settings : String) : String :=
  Text.upper <|
    match asked with
    | some s => if s.isEmpty then settings else s
    | none => settings

def of? (level : Option String) (json : Option Bool) (settingsLevel : String)
    (settingsJson : Bool) : Option Setup :=
  (levelNumber? (levelName level settingsLevel)).map fun n =>
    ⟨n, if json.getD settingsJson then .json else .console⟩

def takes (s : Setup) (level : Level) : Bool := s.level ≤ level.number

def recordOf (n : Notice) (created : Int) : Record where
  name := n.reporter
  level := n.level.number
  template := n.message
  arguments := []
  created := created
  millis := 0
  extra := n.data.foldl (fun m (key, c) => m.set key c) Keyed.empty
  error := none

def line? (s : Setup) (created : Int) (n : Notice) : Option String :=
  if s.takes n.level then
    match s.form with
    | .json => (recordOf n created).jsonLine.toOption
    | .console => ((recordOf n created).print Console.standardFormat).text.toOption
  else none

def configured (levelName : String) (json : Bool) : Notice where
  level := .info
  reporter := "notegrid.core.logging"
  message := "Logging configured"
  data := [("log_level", .text levelName), ("json_logs", .flag json)]
  caused := false

end Setup
end FormulaTable.Journal
