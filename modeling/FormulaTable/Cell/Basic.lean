/-! The values that the cells of a table hold. -/

namespace FormulaTable

/-- An object of a class that is not made for data: its text and the name of its class. -/
structure Object where
  shown : String
  kind : String := "object"
deriving DecidableEq, Repr, Inhabited

instance : Coe String Object := ⟨fun shown => ⟨shown, "object"⟩⟩

instance : Coe Object String := ⟨Object.shown⟩

/-- A cell's value. Besides the usual data it may be some other object, or one that has no text at
all. Bytes, which can be trimmed and read like a text, are none of these. -/
inductive Cell
  | empty
  | flag (b : Bool)
  | whole (n : Int)
  | number (x : Float)
  | text (s : String)
  | list (items : List Cell)
  | mapping (entries : List (Cell × Cell))
  | other (object : Object)
  | mute
deriving Inhabited

def Cell.named (fields : List (String × Cell)) : Cell :=
  .mapping (fields.map fun e => (.text e.1, e.2))

def Cell.isFalsy : Cell → Bool
  | empty => true
  | flag b => !b
  | whole n => n == 0
  | number x => x == 0
  | text s => s.isEmpty
  | list items => items.isEmpty
  | mapping entries => entries.isEmpty
  | other _ | mute => false

inductive CellError
  | numeralTooLong
  | mute
  | beyondDoubles
deriving DecidableEq, Repr

end FormulaTable
