import FormulaTable.Schema.Whole
import FormulaTable.Text.Letter

/-! Texts and flags in a configuration. A text field takes nothing but texts; a flag is also
read from a word or from the numbers 0 and 1. -/

namespace FormulaTable.Schema

def readText : Cell → Except Cause String
  | .text s => .ok s
  | _ => .error .notText

def readFilled (c : Cell) : Except Cause String := do
  let s ← readText c
  if s.isEmpty then .error .tooShort else .ok s

def readOptionalText : Cell → Except Cause (Option String)
  | .empty => .ok none
  | c => (readText c).map some

def falseWords : List String := ["0", "off", "f", "false", "n", "no"]

def trueWords : List String := ["1", "on", "t", "true", "y", "yes"]

def flagOfWhole (n : Int) : Except Cause Bool :=
  if n = 0 then .ok false
  else if n = 1 then .ok true
  else if -2 ^ 63 ≤ n ∧ n < 2 ^ 63 then .error .unreadableFlag
  else .error .notFlag

def readFlag : Cell → Except Cause Bool
  | .flag b => .ok b
  | .whole n => flagOfWhole n
  | .number x =>
    match readWholeDouble x with
    | .ok n => flagOfWhole n
    | .error _ => .error .notFlag
  | .text s =>
    let word := Text.lower s
    if falseWords.contains word then .ok false
    else if trueWords.contains word then .ok true
    else .error .unreadableFlag
  | _ => .error .notFlag

def field {α : Type} (fields : List (String × Cell)) (name : String) (default : α)
    (read : Cell → Except Cause α) : Except Cause α :=
  match fields.lookup name with
  | some c => read c
  | none => .ok default

end FormulaTable.Schema
