import FormulaTable.Decimal.Basic
import FormulaTable.Text.DecimalDigit

/-! Reading a decimal: digits of any script, a point, a power of ten, and single underscores
between digits. -/

namespace FormulaTable.Decimal
open Text

def moreDigits : List Char → List Nat × List Char
  | [] => ([], [])
  | '_' :: c :: rest =>
    match digitValue? c with
    | some d => (d :: (moreDigits rest).1, (moreDigits rest).2)
    | none => ([], '_' :: c :: rest)
  | c :: rest =>
    match digitValue? c with
    | some d => (d :: (moreDigits rest).1, (moreDigits rest).2)
    | none => ([], c :: rest)

def digitRun : List Char → List Nat × List Char
  | [] => ([], [])
  | c :: rest =>
    match digitValue? c with
    | some d => (d :: (moreDigits rest).1, (moreDigits rest).2)
    | none => ([], c :: rest)

def ofDigits (ds : List Nat) : Nat := ds.foldl (fun n d => 10 * n + d) 0

def sign : List Char → Bool × List Char
  | '-' :: rest => (true, rest)
  | '+' :: rest => (false, rest)
  | s => (false, s)

def fractionRun : List Char → List Nat × List Char
  | '.' :: rest => digitRun rest
  | s => ([], s)

def power? : List Char → Option Int
  | [] => some 0
  | c :: rest =>
    if c = 'e' ∨ c = 'E' then
      let (negative, s) := sign rest
      match digitRun s with
      | (d :: ds, []) =>
        let e : Int := ofDigits (d :: ds)
        some (if negative then -e else e)
      | _ => none
    else none

def readUnsigned? (s : List Char) : Option Decimal :=
  let (whole, rest) := digitRun s
  let (frac, rest) := fractionRun rest
  match whole ++ frac with
  | [] => none
  | ds => (power? rest).map fun e => ⟨ofDigits ds, e - frac.length⟩

def read? (s : List Char) : Option (Bool × Decimal) :=
  let (negative, rest) := sign s
  (readUnsigned? rest).map (negative, ·)

end FormulaTable.Decimal
