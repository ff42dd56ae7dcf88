import FormulaTable.Calendar.Day
import FormulaTable.Text.Blank
import FormulaTable.Text.DecimalDigit

/-! Reading a day: year, month and day with dashes, points or slashes between them, or a
timestamp, of which the time of day is checked and dropped. -/

namespace FormulaTable.Day
open Text

def digits? (digit? : Char → Option Nat) (least most : Nat) (s : List Char) :
    Option (Nat × List Char) :=
  let run := ((s.take most).map digit?).takeWhile Option.isSome
  if run.length < least then none
  else some ((run.filterMap id).foldl (fun n d => 10 * n + d) 0, s.drop run.length)

def after? (c : Char) : List Char → Option (List Char)
  | d :: rest => if d = c then some rest else none
  | [] => none

def dash (c : Char) : Char := if c = '.' ∨ c = '/' then '-' else c

def dashedParts? (s : List Char) : Option (Nat × Nat × Nat) := do
  let (y, s) ← digits? digitValue? 4 4 s
  let s ← after? '-' s
  let (m, s) ← digits? digitValue? 1 2 s
  let s ← after? '-' s
  let (d, s) ← digits? digitValue? 1 2 s
  if s.isEmpty then some (y, m, d) else none

def stampedParts? (s : List Char) : Option (Nat × Nat × Nat) := do
  let (y, s) ← digits? digitValue? 4 4 s
  let s ← after? '-' s
  let (m, s) ← digits? digitValue? 2 2 s
  let s ← after? '-' s
  let (d, s) ← digits? digitValue? 2 2 s
  match s with
  | c :: _ => if c = 'T' ∨ c = 't' then some (y, m, d) else none
  | [] => none

def standard? (s : List Char) : Option Day := do
  let (y, s) ← digits? asciiDigit? 4 4 s
  let dashed := s.head? == some '-'
  let s := if dashed then s.drop 1 else s
  let part (s : List Char) : Option (List Char) := if dashed then after? '-' s else some s
  match s with
  | 'W' :: s =>
    let (w, s) ← digits? asciiDigit? 2 2 s
    if s.isEmpty then ofWeek? y w 1
    else
      let (d, _) ← digits? asciiDigit? 1 1 (← part s)
      ofWeek? y w d
  | s =>
    let (m, s) ← digits? asciiDigit? 2 2 s
    let (d, _) ← digits? asciiDigit? 2 2 (← part s)
    of? y m d

/-- How many characters of a timestamp belong to its day. The forms of a day differ in length,
and after a week a digit may belong to the weekday or to the time. -/
def dayLength? (s : List Char) : Option Nat :=
  let isDigit (i : Nat) : Bool := (s[i]?.bind asciiDigit?).isSome
  if s.length = 7 then some 7
  else if s[4]? = some '-' then
    if s[5]? = some 'W' then
      if s[8]? = some '-' then
        if s.length = 9 then none else if isDigit 10 then some 8 else some 10
      else some 8
    else some 10
  else if s[4]? = some 'W' then
    let n := 7 + ((s.drop 7).takeWhile fun c => (asciiDigit? c).isSome).length
    if n < 9 then some n else if n % 2 = 0 then some 7 else some 8
  else some 8

/-- The places after a second's mark: up to six of them are digits, and with six or more any
text may follow. Tells whether all of the text are digits. -/
def secondParts? (s : List Char) : Option Bool :=
  if (s.take 6).all (fun c => (asciiDigit? c).isSome) then
    some (s.all fun c => (asciiDigit? c).isSome)
  else none

/-- Up to `count` parts of two digits with colons between all of them or none (`colons`, once
the first part has shown it), then perhaps a point or comma and parts of a second. One more
ASCII character at the end is let pass. Gives the parts and whether nothing was let pass. -/
def clockParts? : Nat → Option Bool → List Char → Option (List Nat × Bool)
  | 0, _, s => (secondParts? s).map ([], ·)
  | count + 1, colons, s => do
    let (n, s) ← digits? asciiDigit? 2 2 s
    match s with
    | [] => some ([n], true)
    | [c] => if c.toNat < 128 then some ([n], false) else none
    | c :: rest =>
      let colons := colons.getD (c == ':')
      if colons && c == ':' then
        (clockParts? count (some true) rest).map fun (ns, done) => (n :: ns, done)
      else if c == '.' || c == ',' then (secondParts? rest).map ([n], ·)
      else if colons then none
      else (clockParts? count (some false) (c :: rest)).map fun (ns, done) => (n :: ns, done)

def seconds? (parts : List Nat) : Nat × Nat × Nat :=
  (parts[0]?.getD 0, parts[1]?.getD 0, parts[2]?.getD 0)

def isTime (parts : List Nat) : Bool :=
  let (h, m, s) := seconds? parts
  h < 24 && m < 60 && s < 60

def isOffset (parts : List Nat) : Bool :=
  let (h, m, s) := seconds? parts
  3600 * h + 60 * m + s < 86400

def isClock (s : List Char) : Bool :=
  let isSign (c : Char) : Bool := c == '+' || c == '-'
  match clockParts? 3 none (s.takeWhile (!isSign ·)), s.dropWhile (!isSign ·) with
  | none, _ => false
  | some (parts, done), [] => done && isTime parts
  | some (parts, _), _ :: offset =>
    match clockParts? 3 none offset with
    | some (offsetParts, true) => isTime parts && isOffset offsetParts
    | _ => false

def ofTimestamp? (s : List Char) : Option Day := do
  if s.length < 7 then none
  else
    let n ← dayLength? s
    let d ← standard? (s.take n)
    match s.drop n with
    | [] => some d
    | _ :: clock => if isClock clock then some d else none

def zeroOffset (c : Char) : List Char := if c = 'Z' then "+00:00".toList else [c]

def read? (s : String) : Option Day :=
  match Text.trimList s.toList with
  | [] => none
  | cs =>
    let dashed := cs.map dash
    match (dashedParts? dashed).or (stampedParts? dashed) with
    | some (y, m, d) => of? y m d
    | none => ofTimestamp? (cs.flatMap zeroOffset)

end FormulaTable.Day
