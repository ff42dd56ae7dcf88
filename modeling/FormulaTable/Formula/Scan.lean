import FormulaTable.Double.Text
import FormulaTable.Formula.CompileError
import FormulaTable.Text.Blank

/-! From text to tokens. A field name stands in braces, a text in double quotes with
backslash escapes, a number is digits with at most one point. -/

namespace FormulaTable.Formula

def isGap (c : Char) : Bool := c == ' ' || c == '\t' || c == '\r' || c == '\n'

def unescape (c : Char) : Char :=
  if c = 'n' then '\n' else if c = 't' then '\t' else if c = 'r' then '\r' else c

/-- The text up to the closing quote, and how many characters it takes with that quote. -/
def textBody : List Char → Option (List Char × Nat)
  | [] => none
  | '"' :: _ => some ([], 1)
  | ['\\'] => none
  | '\\' :: c :: rest => (textBody rest).map fun (s, n) => (unescape c :: s, n + 2)
  | c :: rest => (textBody rest).map fun (s, n) => (c :: s, n + 1)

def literalRun (pointSeen : Bool) : List Char → List Char
  | [] => []
  | c :: rest =>
    if c = '.' then if pointSeen then [] else c :: literalRun true rest
    else if c.isDigit then c :: literalRun pointSeen rest
    else []

/-- The token that starts with `c` at `position`, and how many characters of `rest` it takes. -/
def lexeme (position : Nat) (c : Char) (rest : List Char) :
    Except CompileError (Token × Nat) :=
  if c = '\x7b' then
    let inner := rest.takeWhile (· ≠ '\x7d')
    if inner.length = rest.length then .error .unmatchedBrace
    else
      match Text.trimList inner with
      | [] => .error .emptyField
      | name => .ok (.field (String.ofList name), inner.length + 1)
  else if c = '"' then
    match textBody rest with
    | none => .error .unterminatedText
    | some (s, n) => .ok (.text (String.ofList s), n)
  else if c = '(' then .ok (.left, 0)
  else if c = ')' then .ok (.right, 0)
  else if c = '.' ∨ c.isDigit then
    let literal := literalRun false (c :: rest)
    match Double.read? literal with
    | none => .error (.lonePoint position)
    | some x =>
      if x.isFinite then .ok (.number x, literal.length - 1)
      else .error (.numberOutOfRange (String.ofList literal))
  else
    match Operator.ofSymbol? c with
    | some op => .ok (.operator op, 0)
    | none => .error (.unexpectedChar c position)

def scan (position : Nat) (s : List Char) : Except CompileError (List Token) :=
  match s with
  | [] => .ok []
  | c :: rest =>
    if isGap c then scan (position + 1) rest
    else
      match lexeme position c rest with
      | .error e => .error e
      | .ok (token, n) =>
        (scan (position + 1 + n) (rest.drop n)).map (token :: ·)
termination_by s.length
decreasing_by all_goals (simp only [List.length_drop, List.length_cons]; omega)

def tokens (s : String) : Except CompileError (List Token) := scan 0 s.toList

end FormulaTable.Formula
