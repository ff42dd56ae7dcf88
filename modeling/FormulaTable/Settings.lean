import FormulaTable.Cell.Text
import FormulaTable.Options
import FormulaTable.Text.Blank

/-! Settings of the application, from arguments and from variables of the environment. -/

namespace FormulaTable

structure Settings where
  environment : String
  debug : Bool
  logLevel : String
  jsonLogs : Bool
  rowLimit : Nat
  errorValue : String
  tooltipPrefix : String
deriving DecidableEq, Repr

inductive SettingsError
  | invalid (problems : List Schema.Problem)
  | muteLevel
deriving DecidableEq, Repr

namespace Settings
open Schema

def levelNames : List String := ["CRITICAL", "ERROR", "WARNING", "INFO", "DEBUG", "NOTSET"]

def readLevel (c : Cell) : Except Cause String :=
  match c.fullText with
  | .ok s =>
    let level := Text.upper (Text.trim s)
    if levelNames.contains level then .ok level else .error .refused
  | .error _ => .error .refused

def variablePrefix : String := "notegrid_"

def variableField? (name : String) : Option String :=
  let lowered := Text.lower name
  if lowered.startsWith variablePrefix then
    some (lowered.drop variablePrefix.length).toString
  else none

/-- The fields set by the environment; of two variables for one field the later one counts. -/
def environmentFields (assignments : List (String × String)) : List (String × Cell) :=
  (assignments.filterMap fun (name, value) =>
    (variableField? name).map fun f => (f, Cell.text value)).reverse

def read (arguments : List (String × Cell)) (assignments : List (String × String)) :
    Except SettingsError Settings :=
  let fields := arguments ++ environmentFields assignments
  match (fields.lookup "log_level").map Cell.fullText with
  | some (.error .mute) => .error .muteLevel
  | _ =>
    let debug := field fields "debug" false readFlag
    let environment := field fields "environment" "development" readText
    let errorValue :=
      field fields "formula_error_value" Options.standard.errorValue readFilled
    let rowLimit := field fields "formula_row_limit" Options.standard.rowLimit readPositive
    let tooltipPrefix :=
      field fields "formula_tooltip_prefix" Options.standard.tooltipPrefix readText
    let jsonLogs := field fields "json_logs" false readFlag
    let logLevel := field fields "log_level" "INFO" readLevel
    match debug, environment, errorValue, rowLimit, tooltipPrefix, jsonLogs, logLevel with
    | .ok d, .ok n, .ok e, .ok r, .ok t, .ok j, .ok l => .ok ⟨n, d, l, j, r, e, t⟩
    | d, n, e, r, t, j, l =>
      .error (.invalid (problemOf "debug" d ++ problemOf "environment" n ++
        problemOf "formula_error_value" e ++ problemOf "formula_row_limit" r ++
        problemOf "formula_tooltip_prefix" t ++ problemOf "json_logs" j ++
        problemOf "log_level" l))

def isProduction (s : Settings) : Bool := s.environment == "production"

def options (s : Settings) : Options := ⟨s.rowLimit, s.errorValue, s.tooltipPrefix⟩

end Settings
end FormulaTable
