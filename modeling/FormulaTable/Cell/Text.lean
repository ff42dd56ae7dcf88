import FormulaTable.Cell.Basic
import FormulaTable.Double.Text
import FormulaTable.Text.Quoted

/-! The text of any cell. Inside a list or a mapping texts are quoted. -/

namespace FormulaTable.Cell

@[irreducible] def longestNumeral : Nat := 4300

def wholeText (n : Int) : Except CellError (List Char) :=
  if 10 ^ longestNumeral ≤ n.natAbs then .error .numeralTooLong else .ok (Decimal.intText n)

def flagText (b : Bool) : List Char := if b then "True".toList else "False".toList

def separated : List (List Char) → List Char
  | [] => []
  | [part] => part
  | part :: rest => part ++ ',' :: ' ' :: separated rest

mutual

def itemText : Cell → Except CellError (List Char)
  | empty => .ok "None".toList
  | flag b => .ok (flagText b)
  | whole n => wholeText n
  | number x => .ok (Double.naturalText x)
  | text s => .ok (Text.quoted s.toList)
  | list items => do
    let parts ← itemTexts items
    .ok ('[' :: separated parts ++ [']'])
  | mapping entries => do
    let parts ← entryTexts entries
    .ok ('\x7b' :: separated parts ++ ['\x7d'])
  | other o => .ok o.shown.toList
  | mute => .error .mute

def itemTexts : List Cell → Except CellError (List (List Char))
  | [] => .ok []
  | c :: rest => do
    let part ← itemText c
    let parts ← itemTexts rest
    .ok (part :: parts)

def entryTexts : List (Cell × Cell) → Except CellError (List (List Char))
  | [] => .ok []
  | (key, c) :: rest => do
    let k ← itemText key
    let v ← itemText c
    let parts ← entryTexts rest
    .ok ((k ++ ':' :: ' ' :: v) :: parts)

end

def fullText : Cell → Except CellError String
  | text s => .ok s
  | c => (itemText c).map String.ofList

end FormulaTable.Cell
