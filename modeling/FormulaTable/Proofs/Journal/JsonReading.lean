import FormulaTable.Proofs.Journal.JsonText

/-!
# Reading JSON

The values that JSON texts stand for, and a reader of such texts by the standard: white space
between the tokens, numbers without superfluous zeros in front. A number without a fraction and
without a power of ten is a whole number of any size, any other one the nearest double. The members
of an object are kept in their order.
-/

namespace FormulaTable.Journal.Json

inductive Value
  | null
  | flag (b : Bool)
  | whole (n : Int)
  | number (x : Float)
  | text (s : String)
  | list (items : List Value)
  | object (members : List (String × Value))

def isSpace (c : Char) : Bool := c == ' ' || c == '\t' || c == '\n' || c == '\r'

def skip (s : List Char) : List Char := s.dropWhile isSpace

def run? (s : List Char) : Option (List Char × List Char) :=
  let ds := s.takeWhile Char.isDigit
  if ds.isEmpty then none else some (ds, s.dropWhile Char.isDigit)

def whole? : List Char → Option (List Char × List Char)
  | '0' :: rest => some (['0'], rest)
  | s => run? s

def fraction? : List Char → Option (List Char × List Char)
  | '.' :: rest => (run? rest).map fun (ds, rest) => ('.' :: ds, rest)
  | s => some ([], s)

def powerSign : List Char → List Char × List Char
  | '+' :: rest => (['+'], rest)
  | '-' :: rest => (['-'], rest)
  | s => ([], s)

def power? : List Char → Option (List Char × List Char)
  | [] => some ([], [])
  | c :: rest =>
    if c = 'e' ∨ c = 'E' then do
      let (sign, rest) := powerSign rest
      let (ds, rest) ← run? rest
      some (c :: (sign ++ ds), rest)
    else some ([], c :: rest)

def minus : List Char → Bool × List Char
  | '-' :: rest => (true, rest)
  | s => (false, s)

def number? (s : List Char) : Option (Value × List Char) := do
  let (negative, s) := minus s
  let (ws, s) ← whole? s
  let (fs, s) ← fraction? s
  let (ps, s) ← power? s
  if fs.isEmpty && ps.isEmpty then
    let n : Int := Nat.ofDigitChars 10 ws 0
    some (.whole (if negative then -n else n), s)
  else
    let x ← Double.read? ((if negative then ['-'] else []) ++ ws ++ fs ++ ps)
    some (.number x, s)

def atom? : List Char → Option (Value × List Char)
  | 'n' :: 'u' :: 'l' :: 'l' :: rest => some (.null, rest)
  | 't' :: 'r' :: 'u' :: 'e' :: rest => some (.flag true, rest)
  | 'f' :: 'a' :: 'l' :: 's' :: 'e' :: rest => some (.flag false, rest)
  | s => number? s

mutual

/-- The value at the start of a text. A value inside another one costs at most two steps and takes
at least two characters, so that more steps than there are characters are enough. -/
def value? : Nat → List Char → Option (Value × List Char)
  | 0, _ => none
  | steps + 1, s =>
    match skip s with
    | '"' :: rest => (text? rest).map fun (t, rest) => (.text t, rest)
    | '[' :: rest =>
      match skip rest with
      | ']' :: rest => some (.list [], rest)
      | _ => (items? steps rest).map fun (vs, rest) => (.list vs, rest)
    | '\x7b' :: rest =>
      match skip rest with
      | '\x7d' :: rest => some (.object [], rest)
      | _ => (members? steps rest).map fun (ms, rest) => (.object ms, rest)
    | s => atom? s

def items? : Nat → List Char → Option (List Value × List Char)
  | 0, _ => none
  | steps + 1, s => do
    let (v, s) ← value? steps s
    match skip s with
    | ',' :: rest => do
      let (vs, rest) ← items? steps rest
      some (v :: vs, rest)
    | ']' :: rest => some ([v], rest)
    | _ => none

def members? : Nat → List Char → Option (List (String × Value) × List Char)
  | 0, _ => none
  | steps + 1, s =>
    match skip s with
    | '"' :: rest => do
      let (key, rest) ← text? rest
      match skip rest with
      | ':' :: rest => do
        let (v, rest) ← value? steps rest
        match skip rest with
        | ',' :: rest => do
          let (ms, rest) ← members? steps rest
          some ((key, v) :: ms, rest)
        | '\x7d' :: rest => some ([(key, v)], rest)
        | _ => none
      | _ => none
    | _ => none

end

def read? (s : String) : Option Value := do
  let (v, rest) ← value? (s.toList.length + 1) s.toList
  if (skip rest).isEmpty then some v else none

example : (read? " [ \"\\ud83d\\ude00\", -0.5E+1, [] ] ").isSome = true := by decide +kernel

/-- Half a pair, a superfluous zero, a point or a comma with nothing behind it, two values. -/
example : ∀ s ∈ ["\"\\ud83d\"", "01", "1.", "[1,]", "1 2"], read? s |>.isNone := by decide +kernel

end FormulaTable.Journal.Json
