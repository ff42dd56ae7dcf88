/-! Templates: texts with placeholders that begin with a percent sign. A placeholder may name its
value in parentheses and give flags, a width and a precision; its last letter says how the value
is written. Two percent signs are a plain one. -/

namespace FormulaTable.Journal

inductive Extent
  | unset
  | exactly (n : Nat)
  | fromArgument
deriving DecidableEq, Repr

structure Placeholder where
  key : Option (List Char)
  leftAligned : Bool
  plusSign : Bool
  blankSign : Bool
  alternate : Bool
  zeroFilled : Bool
  width : Extent
  precision : Extent
deriving DecidableEq, Repr

namespace Placeholder

def bare : Placeholder := ⟨none, false, false, false, false, false, .unset, .unset⟩

def withFlag? (p : Placeholder) (c : Char) : Option Placeholder :=
  if c = '-' then some { p with leftAligned := true }
  else if c = '+' then some { p with plusSign := true }
  else if c = ' ' then some { p with blankSign := true }
  else if c = '#' then some { p with alternate := true }
  else if c = '0' then some { p with zeroFilled := true }
  else none

end Placeholder

inductive Piece
  | literal (c : Char)
  | placeholder (p : Placeholder) (letter : Char)
  /-- The template ends inside a placeholder, `inKey` inside its name. -/
  | cut (p : Placeholder) (inKey : Bool)
deriving DecidableEq, Repr

inductive Place
  | outside
  | start
  | key (depth : Nat) (name : List Char)
  | flags (p : Placeholder)
  | width (p : Placeholder)
  | point (p : Placeholder)
  | precision (p : Placeholder) (begun : Bool)
  | size (p : Placeholder)
  | letter (p : Placeholder)
deriving DecidableEq, Repr

abbrev Move := Place × Option Piece

namespace Place

def atLetter (p : Placeholder) (c : Char) : Move := (outside, some (.placeholder p c))

def atSize (p : Placeholder) (c : Char) : Move :=
  if c = 'h' ∨ c = 'l' ∨ c = 'L' then (letter p, none) else atLetter p c

def atPoint (p : Placeholder) (c : Char) : Move :=
  if c = '.' then (precision { p with precision := .exactly 0 } false, none) else atSize p c

def grow (e : Extent) (c : Char) : Extent :=
  match e with
  | .exactly n => .exactly (10 * n + (c.toNat - 48))
  | _ => .exactly (c.toNat - 48)

def atWidth (p : Placeholder) (c : Char) : Move :=
  if c.isDigit then (width { p with width := grow p.width c }, none) else atPoint p c

def atWidthStart (p : Placeholder) (c : Char) : Move :=
  if c = '*' then (point { p with width := .fromArgument }, none) else atWidth p c

def atFlags (p : Placeholder) (c : Char) : Move :=
  match p.withFlag? c with
  | some q => (flags q, none)
  | none => atWidthStart p c

def atPrecision (p : Placeholder) (begun : Bool) (c : Char) : Move :=
  if c = '*' ∧ !begun then (size { p with precision := .fromArgument }, none)
  else if c.isDigit then (precision { p with precision := grow p.precision c } true, none)
  else atSize p c

def step (place : Place) (c : Char) : Move :=
  match place with
  | outside => if c = '%' then (start, none) else (outside, some (.literal c))
  | start =>
    if c = '%' then (outside, some (.literal '%'))
    else if c = '(' then (key 0 [], none)
    else atFlags .bare c
  | key depth name =>
    if c = ')' then
      match depth with
      | 0 => (flags { Placeholder.bare with key := some name }, none)
      | d + 1 => (key d (name ++ [c]), none)
    else (key (if c = '(' then depth + 1 else depth) (name ++ [c]), none)
  | flags p => atFlags p c
  | width p => atWidth p c
  | point p => atPoint p c
  | precision p begun => atPrecision p begun c
  | size p => atSize p c
  | letter p => atLetter p c

def rest : Place → List Piece
  | outside => []
  | start => [.cut .bare false]
  | key _ name => [.cut { Placeholder.bare with key := some name } true]
  | flags p | width p | point p | precision p _ | size p | letter p => [.cut p false]

end Place

def piecesFrom (place : Place) : List Char → List Piece
  | [] => place.rest
  | c :: cs =>
    let (next, piece) := place.step c
    piece.toList ++ piecesFrom next cs

def pieces (template : String) : List Piece := piecesFrom .outside template.toList

end FormulaTable.Journal
