/-! The tokens of a formula, in the order of the text or in postfix order. -/

namespace FormulaTable.Formula

inductive Operator
  | add
  | sub
  | mul
  | div
deriving DecidableEq, Repr

namespace Operator

def symbol : Operator → Char
  | add => '+'
  | sub => '-'
  | mul => '*'
  | div => '/'

def ofSymbol? (c : Char) : Option Operator :=
  if c = '+' then some add
  else if c = '-' then some sub
  else if c = '*' then some mul
  else if c = '/' then some div
  else none

theorem ofSymbol?_symbol (op : Operator) : ofSymbol? op.symbol = some op := by cases op <;> rfl

def precedence : Operator → Nat
  | add | sub => 1
  | mul | div => 2

def isSign : Operator → Bool
  | add | sub => true
  | mul | div => false

end Operator

/-- A token. A text of a formula never gives an `unknown` operator; a list of tokens from
elsewhere may hold one. -/
inductive Token
  | number (x : Float)
  | field (name : String)
  | text (s : String)
  | operator (op : Operator)
  | unknown (symbol : String)
  | left
  | right
deriving DecidableEq

def Token.fields (ts : List Token) : List String :=
  (ts.filterMap fun | .field name => some name | _ => none).eraseDups

end FormulaTable.Formula
