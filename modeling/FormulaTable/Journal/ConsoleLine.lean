import FormulaTable.Journal.Record

/-! A record as text for a console, with its level in colour. -/

namespace FormulaTable.Journal

inductive ConsoleError
  | message (cause : FillError)
  | formatWithoutPlaceholder
  | missingField (name : String)
  | format (cause : FillError)
deriving DecidableEq, Repr

namespace Console

def paint (code : String) : String := String.ofList ['\x1b', '['] ++ code ++ "m"

def reset : String := paint "0"

def colour (level : String) : String :=
  if level = "DEBUG" then paint "36"
  else if level = "INFO" then paint "32"
  else if level = "WARNING" then paint "33"
  else if level = "ERROR" then paint "31"
  else if level = "CRITICAL" then paint "35"
  else reset

def coloured (level : String) : String := colour level ++ level ++ reset

def standardFormat : String := "%(asctime)s | %(levelname)-8s | %(name)s - %(message)s"

def plainFormat : String := "%(message)s"

def letters : List Char := "diouxefgcrsaDIOUXEFGCRSA%".toList

/-- Letters and digits of any script and underscores may make up a name; this tells them as far
as attributes have such names. -/
def isNameChar (c : Char) : Bool := c.isAlphanum || c == '_' || 128 ≤ c.toNat

def afterExtent (cs : List Char) : List Char :=
  match cs with
  | '*' :: rest => rest
  | _ => cs.dropWhile Char.isDigit

def afterPrecision (cs : List Char) : List Char :=
  match cs with
  | '.' :: rest => if (afterExtent rest).length < rest.length then afterExtent rest else cs
  | _ => cs

def beginsNamed (cs : List Char) : Bool :=
  match cs with
  | '%' :: '(' :: rest =>
    match rest.takeWhile isNameChar, rest.dropWhile isNameChar with
    | _ :: _, ')' :: tail =>
      let isFlag (c : Char) : Bool := (Placeholder.bare.withFlag? c).isSome
      match afterPrecision (afterExtent (tail.dropWhile isFlag)) with
      | c :: _ => letters.contains c
      | [] => false
    | _, _ => false
  | _ => false

def hasNamed : List Char → Bool
  | [] => false
  | c :: rest => beginsNamed (c :: rest) || hasNamed rest

def timeMark : List Char := "%(asctime)".toList

def usesTime : List Char → Bool
  | [] => false
  | c :: rest => timeMark.isPrefixOf (c :: rest) || usesTime rest

def attribute? (r : Record) (key : String) : Option Cell :=
  (r.extra.get? key).or <|
    if key = "name" then some (.text r.name)
    else if key = "levelname" then some (.text (levelName r.level))
    else if key = "msg" then some (.text r.template)
    else if key = "levelno" then some (.whole r.level)
    else if key = "created" then some (.whole r.created)
    else if key = "msecs" then some (.whole r.millis)
    else none

/-- What a date format makes of the seconds and milliseconds of a time. It may be one that cannot
be used. -/
abbrev DateFormat := Int → Nat → Except ConsoleError String

def standardDate : DateFormat := fun seconds _ => .ok (Instant.text seconds)

def timed (date : DateFormat) (format : List Char) (r : Record) : Except ConsoleError Record :=
  if usesTime format then
    (date r.created r.millis).map fun t => r.withAttribute "asctime" (.text t)
  else .ok r

def errorText? (r : Record) : Option String :=
  match r.textAttribute "exc_text" "" with
  | "" => r.errorText?
  | s => some s

def withErrorText (r : Record) : Record :=
  match errorText? r with
  | none => r
  | some e => r.withAttribute "exc_text" (.text e)

def withError (text : String) : Option String → String
  | none => text
  | some e => if text.endsWith "\n" then text ++ e else text ++ "\n" ++ e

end Console

structure Printing where
  text : Except ConsoleError String
  record : Record

/-- Writes a record as it stands. Its message, its time and the text of its error stay with it, as
far as they were found out. -/
def Record.write (r : Record) (date : Console.DateFormat) (format : String) : Printing :=
  match r.message with
  | .error e => ⟨.error (.message e), r⟩
  | .ok message =>
    let r := r.withAttribute "message" (.text message)
    match Console.timed date format.toList r with
    | .error e => ⟨.error e, r⟩
    | .ok r =>
      match fill format ⟨[], some (Console.attribute? r)⟩ with
      | .ok text =>
        ⟨.ok (Console.withError text (Console.errorText? r)), Console.withErrorText r⟩
      | .error (.missingKey name) => ⟨.error (.missingField name), r⟩
      | .error e => ⟨.error (.format e), r⟩

def Record.printDated (r : Record) (date : Console.DateFormat) (format : String) : Printing :=
  let format := if format.isEmpty then Console.plainFormat else format
  if !Console.hasNamed format.toList then ⟨.error .formatWithoutPlaceholder, r⟩
  else
    let level := r.levelText
    let p := (r.withAttribute "levelname" (.text (Console.coloured level))).write date format
    ⟨p.text, p.record.withAttribute "levelname" (.text level)⟩

def Record.print (r : Record) (format : String) : Printing :=
  r.printDated Console.standardDate format

end FormulaTable.Journal
