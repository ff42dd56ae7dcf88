import FormulaTable.Journal.JsonLine
import Mathlib.Tactic.IntervalCases

/-!
# Texts as JSON

A reader of texts with all escapes and with pairs of surrogates. What is written for a character
holds no control character and stands for that one character, so that a text in quotes is read back.
-/

namespace FormulaTable.Journal.Json

def hexValue? (c : Char) : Option Nat :=
  if c.isDigit then some (c.toNat - 48)
  else if 'a' ≤ c ∧ c ≤ 'f' then some (c.toNat - 87)
  else if 'A' ≤ c ∧ c ≤ 'F' then some (c.toNat - 55)
  else none

def hexUnit? (a b c d : Char) : Option Nat := do
  some (4096 * (← hexValue? a) + 256 * (← hexValue? b) + 16 * (← hexValue? c) + (← hexValue? d))

def shortEscape? (c : Char) : Option Nat :=
  [('"', 0x22), ('\\', 0x5C), ('/', 0x2F), ('b', 8), ('f', 12), ('n', 10), ('r', 13),
    ('t', 9)].lookup c

def units? : List Char → Option (List Nat × List Char)
  | [] => none
  | '"' :: rest => some ([], rest)
  | '\\' :: 'u' :: a :: b :: c :: d :: rest => do
    let u ← hexUnit? a b c d
    let (us, rest) ← units? rest
    some (u :: us, rest)
  | '\\' :: c :: rest => do
    let u ← shortEscape? c
    let (us, rest) ← units? rest
    some (u :: us, rest)
  | c :: rest =>
    if c = '\\' ∨ c.toNat < 0x20 then none
    else do
      let (us, rest) ← units? rest
      some (c.toNat :: us, rest)

def isHigh (u : Nat) : Bool := 0xD800 ≤ u && u < 0xDC00

def isLow (u : Nat) : Bool := 0xDC00 ≤ u && u < 0xE000

def characters? : List Nat → Option (List Char)
  | [] => some []
  | [u] => if isHigh u || isLow u then none else some [Char.ofNat u]
  | u :: v :: us =>
    if isHigh u then
      if isLow v then
        (characters? us).map (Char.ofNat (0x10000 + 0x400 * (u - 0xD800) + (v - 0xDC00)) :: ·)
      else none
    else if isLow u then none
    else (characters? (v :: us)).map (Char.ofNat u :: ·)

def text? (s : List Char) : Option (String × List Char) := do
  let (us, rest) ← units? s
  let cs ← characters? us
  some (String.ofList cs, rest)

variable {rest : List Char}

theorem units?_short {c d : Char} (hd : d ≠ 'u') (h : shortEscape? d = some c.toNat) :
    units? ('\\' :: d :: rest) = (units? rest).map fun (us, rest) => (c.toNat :: us, rest) := by
  rw [units?.eq_4 d rest (by rintro _ _ _ _ _ rfl; exact absurd rfl hd)]
  simp only [h, Option.bind_eq_bind, Option.bind_some]
  cases units? rest <;> rfl

theorem units?_plain {c : Char} (hquote : c ≠ '"') (hslash : c ≠ '\\') (h : 0x20 ≤ c.toNat) :
    units? (c :: rest) = (units? rest).map fun (us, rest) => (c.toNat :: us, rest) := by
  rw [units?.eq_5 c rest]
  · have hkept : ¬(c = '\\' ∨ c.toNat < 0x20) := by
      rintro (h' | h')
      · exact hslash h'
      · omega
    rw [if_neg hkept]
    cases units? rest <;> rfl
  all_goals intros; simp_all

theorem hex_of_lt {n : Nat} (h : n < 0x20) :
    Text.hex 4 n = ['0', '0', (n / 16).digitChar, (n % 16).digitChar] := by
  interval_cases n <;> rfl

theorem hexUnit?_of_lt {n : Nat} (h : n < 0x20) :
    hexUnit? '0' '0' (n / 16).digitChar (n % 16).digitChar = some n := by
  interval_cases n <;> rfl

theorem units?_hex {n : Nat} (h : n < 0x20) :
    units? ('\\' :: 'u' :: Text.hex 4 n ++ rest) =
      (units? rest).map fun (us, rest) => (n :: us, rest) := by
  rw [hex_of_lt h]
  simp only [List.cons_append, List.nil_append, units?, hexUnit?_of_lt h, Option.bind_eq_bind,
    Option.bind_some]
  cases units? rest <;> rfl

theorem units?_escape (c : Char) :
    units? (escape c ++ rest) = (units? rest).map fun (us, rest) => (c.toNat :: us, rest) := by
  fun_cases escape c with
  | case1 h => subst h; exact units?_short (by decide) (by decide)
  | case2 _ h => subst h; exact units?_short (by decide) (by decide)
  | case3 _ _ h => subst h; exact units?_short (by decide) (by decide)
  | case4 _ _ _ h => subst h; exact units?_short (by decide) (by decide)
  | case5 _ _ _ _ h => subst h; exact units?_short (by decide) (by decide)
  | case6 _ _ _ _ _ h => exact units?_short (by decide) (by rw [h]; decide)
  | case7 _ _ _ _ _ _ h => exact units?_short (by decide) (by rw [h]; decide)
  | case8 _ _ _ _ _ _ _ h => exact units?_hex h
  | case9 hquote hslash _ _ _ _ _ h => exact units?_plain hquote hslash (by omega)

theorem units?_escaped (cs : List Char) :
    units? (cs.flatMap escape ++ '"' :: rest) = some (cs.map Char.toNat, rest) := by
  induction cs with
  | nil => simp [units?]
  | cons c cs ih =>
    rw [List.flatMap_cons, List.append_assoc, units?_escape, ih]
    rfl

theorem not_half (c : Char) : isHigh c.toNat = false ∧ isLow c.toNat = false := by
  have hvalid : c.toNat < 0xD800 ∨ 0xDFFF < c.toNat ∧ c.toNat < 0x110000 := c.valid
  simp only [isHigh, isLow, Bool.and_eq_false_iff, decide_eq_false_iff_not]
  omega

theorem characters?_map (cs : List Char) : characters? (cs.map Char.toNat) = some cs := by
  induction cs with
  | nil => rfl
  | cons c cs ih =>
    obtain ⟨hhigh, hlow⟩ := not_half c
    cases cs with
    | nil => simp [characters?, hhigh, hlow]
    | cons d cs =>
      simp only [List.map_cons] at ih ⊢
      simp [characters?, hhigh, hlow, ih]

theorem text?_quoted (s : String) :
    text? (s.toList.flatMap escape ++ '"' :: rest) = some (s, rest) := by
  simp only [text?, units?_escaped, characters?_map, Option.bind_eq_bind, Option.bind_some,
    String.ofList_toList]

theorem visible_escape (c : Char) : ∀ d ∈ escape c, 0x20 ≤ d.toNat := by
  have hdigit : ∀ k < 16, 0x20 ≤ k.digitChar.toNat := by decide
  fun_cases escape c with
  | case8 _ _ _ _ _ _ _ h =>
    rw [hex_of_lt h]
    simp [hdigit, Nat.mod_lt]
    exact hdigit _ (by omega)
  | case9 _ _ _ _ _ _ _ h => simpa using h
  | _ => simp

theorem visible_quoted (s : String) : ∀ c ∈ quoted s, 0x20 ≤ c.toNat := by
  intro c hc
  simp only [quoted, List.cons_append, List.mem_cons, List.mem_append, List.mem_flatMap,
    List.not_mem_nil, or_false] at hc
  rcases hc with rfl | ⟨d, -, hd⟩ | rfl
  · decide
  · exact visible_escape d c hd
  · decide

/-- `Quotes cs s`: the characters `cs` are the text `s` in quotes. -/
structure Quotes (cs : List Char) (s : String) : Prop where
  read : ∃ body, cs = '"' :: body ∧ ∀ rest, text? (body ++ rest) = some (s, rest)
  visible : ∀ c ∈ cs, 0x20 ≤ c.toNat

theorem quotes_quoted (s : String) : Quotes (quoted s) s := by
  refine ⟨⟨s.toList.flatMap escape ++ ['"'], rfl, fun rest => ?_⟩, visible_quoted s⟩
  rw [List.append_assoc]
  exact text?_quoted s

end FormulaTable.Journal.Json
