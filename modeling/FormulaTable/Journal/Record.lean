import FormulaTable.Calendar.Instant
import FormulaTable.Journal.Filling
import FormulaTable.Keyed

/-! Records of a log, as they come to be written. -/

namespace FormulaTable.Journal

def levelName (n : Int) : String :=
  if n = 50 then "CRITICAL"
  else if n = 40 then "ERROR"
  else if n = 30 then "WARNING"
  else if n = 20 then "INFO"
  else if n = 10 then "DEBUG"
  else if n = 0 then "NOTSET"
  else "Level " ++ String.ofList (Decimal.intText n)

/-- An error that is told with a record, as the text that it is written as: its class and what it
says, behind the lines of a traceback if it has one. -/
structure Failure where
  text : String
deriving DecidableEq, Repr

def Failure.ofMessage (s : String) : Failure :=
  ⟨if s.isEmpty then "ValueError" else "ValueError: " ++ s⟩

instance : Coe (Option String) (Option Failure) := ⟨Option.map Failure.ofMessage⟩

structure Record where
  name : String
  level : Int
  template : String
  arguments : List Cell
  /-- Seconds since the start of 1970. -/
  created : Int
  millis : Nat
  extra : Keyed Cell
  error : Option Failure

namespace Record

def textAttribute (r : Record) (key default : String) : String :=
  match r.extra.get? key with
  | some (.text s) => s
  | _ => default

def withAttribute (r : Record) (key : String) (c : Cell) : Record :=
  { r with extra := r.extra.set key c }

def loggerName (r : Record) : String := r.textAttribute "name" r.name

def levelText (r : Record) : String := r.textAttribute "levelname" (levelName r.level)

def argumentsOf : List Cell → Arguments
  | [.mapping (e :: es)] =>
    ⟨[.mapping (e :: es)], some fun name =>
      ((e :: es).find? fun (k, _) => match k with | .text s => s == name | _ => false).map (·.2)⟩
  | cs => ⟨cs, none⟩

/-- The message; without arguments the template is left as it is. It is made out by `getMessage`,
unless there is an attribute of that name, which cannot be called. -/
def message (r : Record) : Except FillError String :=
  let template := r.textAttribute "msg" r.template
  if (r.extra.get? "getMessage").isSome then .error .notCallable
  else if r.arguments.isEmpty then .ok template
  else fill template (argumentsOf r.arguments)

def errorText? (r : Record) : Option String := r.error.map Failure.text

def standardAttributes : List String :=
  ["name", "msg", "args", "created", "filename", "funcName", "levelname", "levelno", "lineno",
    "module", "msecs", "pathname", "process", "processName", "relativeCreated", "stack_info",
    "exc_info", "exc_text", "thread", "threadName", "taskName", "message"]

def isExtraKey (key : String) : Bool :=
  !standardAttributes.contains key && !key.startsWith "_"

def extraFields (r : Record) : List (String × Cell) :=
  r.extra.entries.filter fun (key, _) => isExtraKey key

end Record
end FormulaTable.Journal
