import FormulaTable.Cell.Text
import FormulaTable.Double.Nearest
import FormulaTable.Double.Scientific
import FormulaTable.Journal.Template

/-! Filling the placeholders of a template with the values of its arguments. -/

namespace FormulaTable.Journal

inductive FillError
  | tooFewArguments
  | tooManyArguments
  | unnamedArguments
  | missingKey (name : String)
  | cutShort
  | unknownLetter (c : Char)
  | extentTooBig
  | extentOverflow
  | notWholeExtent
  | textTooLong
  | notNumber
  | notWhole
  | notCharacter
  | noSuchCharacter
  | infinite
  | undefinedNumber
  | cell (cause : CellError)
  /-- Something that cannot be called stands where the message is made out. -/
  | notCallable
deriving DecidableEq, Repr

structure Arguments where
  queue : List Cell
  named : Option (String → Option Cell)

namespace Arguments

def next : Arguments → Except FillError (Cell × Arguments)
  | ⟨[], _⟩ => .error .tooFewArguments
  | ⟨c :: rest, named⟩ => .ok (c, ⟨rest, named⟩)

def select (a : Arguments) (name : String) : Except FillError Arguments :=
  match a.named with
  | none => .error .unnamedArguments
  | some f =>
    match f name with
    | some c => .ok ⟨[c], a.named⟩
    | none => .error (.missingKey name)

end Arguments

structure Written where
  negative : Bool
  mark : List Char
  body : List Char
  numeric : Bool

structure Shape where
  given : Placeholder
  leftAligned : Bool
  width : Nat
  precision : Option Nat

namespace Shape

def sign (s : Shape) (w : Written) : List Char :=
  if !w.numeric then []
  else if w.negative then ['-']
  else if s.given.plusSign then ['+']
  else if s.given.blankSign then [' ']
  else []

def padded (s : Shape) (w : Written) : List Char :=
  let front := s.sign w ++ w.mark
  let fill := s.width - (front.length + w.body.length)
  if s.leftAligned then front ++ w.body ++ List.replicate fill ' '
  else if s.given.zeroFilled && w.numeric then front ++ List.replicate fill '0' ++ w.body
  else List.replicate fill ' ' ++ front ++ w.body

end Shape

def plainText (s : Shape) (cs : List Char) : Written :=
  ⟨false, [], match s.precision with | some n => cs.take n | none => cs, false⟩

def asciiOnly (cs : List Char) : List Char :=
  cs.flatMap fun c => if c.toNat < 128 then [c] else Text.escapeHidden c

def wholeOf : Cell → Except FillError Int
  | .whole n => .ok n
  | .flag b => .ok (if b then 1 else 0)
  | .number x =>
    if x.isNaN then .error .undefinedNumber
    else if x.isFinite then .ok (Double.toInt x)
    else .error .infinite
  | _ => .error .notNumber

def strictlyWhole : Cell → Except FillError Int
  | .whole n => .ok n
  | .flag b => .ok (if b then 1 else 0)
  | _ => .error .notWhole

def doubleOf : Cell → Except FillError Float
  | .number x => .ok x
  | .flag b => .ok (if b then 1 else 0)
  | .whole n =>
    match Double.ofInt? n with
    | some x => .ok x
    | none => .error (.cell .beyondDoubles)
  | _ => .error .notNumber

def writeWhole (s : Shape) (mark digits : List Char) (n : Int) : Written :=
  ⟨n < 0, if s.given.alternate then mark else [],
    Decimal.padLeft (s.precision.getD 0) '0' digits, true⟩

def upperAscii (cs : List Char) : List Char := cs.map Char.toUpper

def magnitudeText (s : Shape) (letter : Char) (x : Float) : List Char :=
  let p := s.precision.getD 6
  if letter = 'e' then Double.scientificText s.given.alternate p x
  else if letter = 'f' then Double.fixedText s.given.alternate p x
  else Double.generalText s.given.alternate p x

def writeDouble (s : Shape) (letter : Char) (x : Float) : Written :=
  if x.isNaN then ⟨false, [], "nan".toList, true⟩
  else
    ⟨Double.isNegative x, [],
      if x.isFinite then magnitudeText s letter x else "inf".toList, true⟩

def characterOf : Cell → Except FillError (List Char)
  | .text t =>
    match t.toList with
    | [c] => .ok [c]
    | _ => .error .notCharacter
  | c =>
    match strictlyWhole c with
    | .ok n => if 0 ≤ n ∧ n < 0x110000 then .ok [Char.ofNat n.toNat] else .error .noSuchCharacter
    | .error _ => .error .notCharacter

def writeCell (s : Shape) (letter : Char) (c : Cell) : Except FillError Written := do
  if letter = 's' then
    let t ← c.fullText.mapError .cell
    .ok (plainText s t.toList)
  else if letter = 'r' then
    let t ← c.itemText.mapError .cell
    .ok (plainText s t)
  else if letter = 'a' then
    let t ← c.itemText.mapError .cell
    .ok (plainText s (asciiOnly t))
  else if letter = 'd' ∨ letter = 'i' ∨ letter = 'u' then
    let n ← wholeOf c
    let _ ← (Cell.wholeText n).mapError .cell
    .ok (writeWhole s [] (Decimal.numeral n.natAbs) n)
  else if letter = 'o' then
    let n ← strictlyWhole c
    .ok (writeWhole s ['0', 'o'] (Nat.toDigits 8 n.natAbs) n)
  else if letter = 'x' then
    let n ← strictlyWhole c
    .ok (writeWhole s ['0', 'x'] (Nat.toDigits 16 n.natAbs) n)
  else if letter = 'X' then
    let n ← strictlyWhole c
    .ok (writeWhole s ['0', 'X'] (upperAscii (Nat.toDigits 16 n.natAbs)) n)
  else if letter = 'e' ∨ letter = 'f' ∨ letter = 'g' then
    let x ← doubleOf c
    .ok (writeDouble s letter x)
  else if letter = 'E' ∨ letter = 'F' ∨ letter = 'G' then
    let x ← doubleOf c
    let w := writeDouble s letter.toLower x
    .ok { w with body := upperAscii w.body }
  else if letter = 'c' then
    let t ← characterOf c
    .ok ⟨false, [], t, false⟩
  else .error (.unknownLetter letter)

def widthBound : Nat := 2 ^ 63

def precisionBound : Nat := 2 ^ 31

def takeExtent (bound : Nat) (a : Arguments) : Except FillError (Int × Arguments) := do
  let (c, a) ← a.next
  let n ← (strictlyWhole c).mapError fun _ => .notWholeExtent
  if -(bound : Int) ≤ n ∧ n < bound then .ok (n, a) else .error .extentOverflow

def takeWidth (e : Extent) (a : Arguments) : Except FillError (Nat × Bool × Arguments) :=
  match e with
  | .unset => .ok (0, false, a)
  | .exactly n => if n < widthBound then .ok (n, false, a) else .error .extentTooBig
  | .fromArgument => do
    let (n, a) ← takeExtent widthBound a
    .ok (n.natAbs, n < 0, a)

def takePrecision (e : Extent) (a : Arguments) :
    Except FillError (Option Nat × Arguments) :=
  match e with
  | .unset => .ok (none, a)
  | .exactly n => if n < precisionBound then .ok (some n, a) else .error .extentTooBig
  | .fromArgument => do
    let (n, a) ← takeExtent precisionBound a
    .ok (some n.toNat, a)

/-- The placeholder with its extents, after its name has been looked up. -/
def settle (p : Placeholder) (a : Arguments) : Except FillError (Shape × Arguments) := do
  let a ← match p.key with
    | some name => a.select (String.ofList name)
    | none => .ok a
  let (width, left, a) ← takeWidth p.width a
  let (precision, a) ← takePrecision p.precision a
  .ok (⟨p, p.leftAligned || left, width, precision⟩, a)

def fillPieces (a : Arguments) : List Piece → Except FillError (List Char)
  | [] =>
    if a.named.isNone && !a.queue.isEmpty then .error .tooManyArguments else .ok []
  | .literal c :: rest => do
    let tail ← fillPieces a rest
    .ok (c :: tail)
  | .cut p inKey :: _ =>
    if inKey then
      if a.named.isNone then .error .unnamedArguments else .error .cutShort
    else
      match settle p a with
      | .error e => .error e
      | .ok _ => .error .cutShort
  | .placeholder p letter :: rest => do
    let (shape, a) ← settle p a
    let (c, a) ← a.next
    let w ← writeCell shape letter c
    if precisionBound ≤ shape.width then .error .textTooLong
    else
      let tail ← fillPieces a rest
      .ok (shape.padded w ++ tail)

def fill (template : String) (a : Arguments) : Except FillError String :=
  (fillPieces a (pieces template)).map String.ofList

end FormulaTable.Journal
