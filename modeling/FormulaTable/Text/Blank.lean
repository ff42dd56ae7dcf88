/-! The characters that count as blank at the edges of a text, and the text without them.
A formula's own spaces are a smaller set and belong to its lexemes. -/

namespace FormulaTable.Text

/-- Blank characters: the white space of Unicode and the four separators U+001C to U+001F. -/
def isBlank (c : Char) : Bool :=
  let n := c.toNat
  (9 ≤ n && n ≤ 13) || (0x1C ≤ n && n ≤ 0x20) || n == 0x85 || n == 0xA0 || n == 0x1680 ||
    (0x2000 ≤ n && n ≤ 0x200A) || n == 0x2028 || n == 0x2029 || n == 0x202F || n == 0x205F ||
    n == 0x3000

def isWhiteSpace (c : Char) : Bool := isBlank c && !(0x1C ≤ c.toNat && c.toNat ≤ 0x1F)

def trimRightBy (p : Char → Bool) : List Char → List Char
  | [] => []
  | c :: rest =>
    match trimRightBy p rest with
    | [] => if p c then [] else [c]
    | kept => c :: kept

def trimBy (p : Char → Bool) (s : List Char) : List Char := trimRightBy p (s.dropWhile p)

def trimList (s : List Char) : List Char := trimBy isBlank s

theorem trimRightBy_trimRightBy (p : Char → Bool) (s : List Char) :
    trimRightBy p (trimRightBy p s) = trimRightBy p s := by
  induction s with
  | nil => rfl
  | cons c rest ih =>
    rw [trimRightBy]
    split
    · by_cases h : p c <;> simp [h, trimRightBy]
    · next hne => rw [trimRightBy, ih]; split <;> simp_all

def trim (s : String) : String := String.ofList (trimList s.toList)

end FormulaTable.Text
