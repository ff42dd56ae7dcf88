import FormulaTable.Journal.Record

/-! A record as one line of JSON. -/

namespace FormulaTable.Journal

inductive JsonError
  | message (cause : FillError)
  | wholeTooLarge
  | keyNotText
  | mute
  | nestedTooDeep
deriving DecidableEq, Repr

namespace Json

def numberLayout : Decimal.Layout := ⟨-5, 15, 1⟩

def escape (c : Char) : List Char :=
  if c = '"' then ['\\', '"']
  else if c = '\\' then ['\\', '\\']
  else if c = '\n' then ['\\', 'n']
  else if c = '\t' then ['\\', 't']
  else if c = '\r' then ['\\', 'r']
  else if c.toNat = 8 then ['\\', 'b']
  else if c.toNat = 12 then ['\\', 'f']
  else if c.toNat < 0x20 then '\\' :: 'u' :: Text.hex 4 c.toNat
  else [c]

def quoted (s : String) : List Char := '"' :: s.toList.flatMap escape ++ ['"']

def ofDouble (x : Float) : List Char :=
  if x.isFinite then Double.signed x (numberLayout.text (Double.shortest x)) else "null".toList

def ofWhole (n : Int) : Except JsonError (List Char) :=
  if -2 ^ 63 ≤ n ∧ n < 2 ^ 64 then .ok (Decimal.intText n) else .error .wholeTooLarge

def joined : List (List Char) → List Char
  | [] => []
  | [part] => part
  | part :: rest => part ++ ',' :: joined rest

def member (key : String) (value : List Char) : List Char := quoted key ++ ':' :: value

def object (members : List (List Char)) : List Char := '\x7b' :: joined members ++ ['\x7d']

def deepest : Nat := 254

/-- A way to write cells, which asks `describe` for the text of what it cannot write itself. -/
abbrev Writer := (Cell → Except CellError String) → Cell → Except JsonError (List Char)

def described (describe : Cell → Except CellError String) (c : Cell) :
    Except JsonError (List Char) :=
  match describe c with
  | .ok s => .ok (quoted s)
  | .error _ => .error .mute

section
variable (native : Object → Option (List Char)) (describe : Cell → Except CellError String)

mutual

/-- A cell at a nesting depth, where `native` writes the objects of some classes. -/
def ofCell (depth : Nat) : Cell → Except JsonError (List Char)
  | .empty => .ok "null".toList
  | .flag b => .ok (if b then "true".toList else "false".toList)
  | .whole n => ofWhole n
  | .number x => .ok (ofDouble x)
  | .text s => .ok (quoted s)
  | .list items =>
    if deepest < depth then .error .nestedTooDeep
    else do
      let parts ← ofItems (depth + 1) items
      .ok ('[' :: joined parts ++ [']'])
  | .mapping entries =>
    if deepest < depth then .error .nestedTooDeep
    else do
      let parts ← ofEntries (depth + 1) entries
      .ok (object parts)
  | .other o =>
    match native o with
    | some cs => .ok cs
    | none => described describe (.other o)
  | .mute => described describe .mute

def ofItems (depth : Nat) : List Cell → Except JsonError (List (List Char))
  | [] => .ok []
  | c :: rest => do
    let part ← ofCell depth c
    let parts ← ofItems depth rest
    .ok (part :: parts)

def ofEntries (depth : Nat) : List (Cell × Cell) → Except JsonError (List (List Char))
  | [] => .ok []
  | (.text key, c) :: rest => do
    let value ← ofCell depth c
    let parts ← ofEntries depth rest
    .ok (member key value :: parts)
  | _ :: _ => .error .keyNotText

end

end

def writer (native : Object → Option (List Char)) : Writer :=
  fun describe c => ofCell native describe 1 c

/-- The writer that knows no class of objects. -/
def plainWriter : Writer := writer fun _ => none

end Json

namespace Record

def jsonFields (r : Record) (message : String) : List (String × Cell) :=
  let own :=
    [("timestamp", .text (Instant.textWithMillis r.created r.millis)), ("level", .text r.levelText),
      ("logger", .text r.loggerName), ("message", .text message)]
  let error := r.errorText?.toList.map fun e => ("exception", .text e)
  let extra := if r.extraFields.isEmpty then [] else [("extra", Cell.named r.extraFields)]
  own ++ error ++ extra

def jsonLine (r : Record) (write : Json.Writer := Json.plainWriter) : Except JsonError String := do
  let message ← r.message.mapError .message
  let cs ← write Cell.fullText (Cell.named (r.jsonFields message))
  .ok (String.ofList cs)

end Record
end FormulaTable.Journal
