import FormulaTable.Formula.Scan

/-!
# Lexemes

The written form of the tokens: which texts stand for a token, and how tokens follow one another in
a text. A text that is made of gaps and lexemes is read as the tokens of its lexemes.
-/

namespace FormulaTable.Formula

structure Literal where
  whole : List Char
  /-- The digits after the point; `none` without a point. -/
  fraction? : Option (List Char)
  isDigit : ∀ c ∈ whole ++ fraction?.getD [], c.isDigit = true
  ne_nil : whole ++ fraction?.getD [] ≠ []

namespace Literal

def digits (l : Literal) : List Char := l.whole ++ l.fraction?.getD []

def text (l : Literal) : List Char :=
  match l.fraction? with
  | none => l.whole
  | some ds => l.whole ++ '.' :: ds

def decimal (l : Literal) : Decimal :=
  ⟨Decimal.ofDigits (l.digits.map (·.toNat - 48)), -((l.fraction?.getD []).length : Int)⟩

def value (l : Literal) : Float := Double.ofDecimal false l.decimal

end Literal

theorem digitValue?_of_isDigit {c : Char} (h : c.isDigit = true) :
    Text.digitValue? c = some (c.toNat - 48) :=
  Text.digitValue?_of_asciiDigit? (by simp [Text.asciiDigit?, h])

theorem ne_of_isDigit {c d : Char} (hc : c.isDigit = true) (hd : d.isDigit = false) : c ≠ d := by
  rintro rfl
  simp [hc] at hd

def EndsDigits (rest : List Char) : Prop := ∀ c ∈ rest.head?, c = '.' ∨ c = 'e'

theorem EndsDigits.digitValue? {c : Char} {rest : List Char} (h : EndsDigits (c :: rest)) :
    Text.digitValue? c = none ∧ c ≠ '_' := by
  rcases h c rfl with rfl | rfl <;> decide

theorem moreDigits_append {ds rest : List Char} (hds : ∀ c ∈ ds, c.isDigit = true)
    (hrest : EndsDigits rest) :
    Decimal.moreDigits (ds ++ rest) = (ds.map (·.toNat - 48), rest) := by
  induction ds with
  | nil =>
    cases rest with
    | nil => rfl
    | cons c s =>
      obtain ⟨hdigit, hline⟩ := hrest.digitValue?
      simp [Decimal.moreDigits, hdigit, hline]
  | cons c ds ih =>
    have hc := hds c (by simp)
    have ih' := ih fun d hd => hds d (List.mem_cons_of_mem c hd)
    have hu : c ≠ '_' := ne_of_isDigit hc (by decide)
    simp [Decimal.moreDigits, hu, digitValue?_of_isDigit hc, ih']

theorem digitRun_append {ds rest : List Char} (hds : ∀ c ∈ ds, c.isDigit = true)
    (hrest : EndsDigits rest) :
    Decimal.digitRun (ds ++ rest) = (ds.map (·.toNat - 48), rest) := by
  cases ds with
  | nil =>
    cases rest with
    | nil => rfl
    | cons c s => simp [Decimal.digitRun, hrest.digitValue?]
  | cons c ds =>
    have hc := hds c (by simp)
    have hm := moreDigits_append (fun d hd => hds d (List.mem_cons_of_mem c hd)) hrest
    simp [Decimal.digitRun, digitValue?_of_isDigit hc, hm]

theorem sign_of_isDigit {c : Char} {rest : List Char} (h : c.isDigit = true ∨ c = '.') :
    Decimal.sign (c :: rest) = (false, c :: rest) := by
  have hm : c ≠ '-' := by rintro rfl; simp at h
  have hp : c ≠ '+' := by rintro rfl; simp at h
  simp [Decimal.sign, hm, hp]

theorem Literal.text_eq_cons (l : Literal) :
    ∃ c rest, l.text = c :: rest ∧ (c.isDigit = true ∨ c = '.') := by
  obtain ⟨whole, fraction?, hd, hne⟩ := l
  cases whole with
  | cons c rest =>
    have hc := hd c (by simp)
    cases fraction? <;> exact ⟨c, _, rfl, Or.inl hc⟩
  | nil =>
    cases fraction? with
    | none => simp at hne
    | some ds => exact ⟨'.', ds, rfl, Or.inr rfl⟩

theorem Literal.readUnsigned?_append (l : Literal) (rest : List Char)
    (h : ∀ c ∈ rest.head?, c = 'e') :
    Decimal.readUnsigned? (l.text ++ rest) =
      (Decimal.power? rest).map fun e => ⟨l.decimal.digits, e + l.decimal.exponent⟩ := by
  obtain ⟨whole, fraction?, hd, hne⟩ := l
  have hw : ∀ c ∈ whole, c.isDigit = true := fun c hc => hd c (List.mem_append_left _ hc)
  have hends : EndsDigits rest := fun c hc => .inr (h c hc)
  cases fraction? with
  | none =>
    have hr := digitRun_append hw hends
    have hf : Decimal.fractionRun rest = ([], rest) := by
      cases rest with
      | nil => rfl
      | cons c s =>
        obtain rfl := h c rfl
        rfl
    cases whole with
    | nil => simp at hne
    | cons c cs =>
      rw [List.cons_append] at hr
      simp [Decimal.readUnsigned?, text, hr, hf, decimal, digits]
  | some ds =>
    have hpoint : EndsDigits ('.' :: (ds ++ rest)) := by simp [EndsDigits]
    have hr := digitRun_append hw hpoint
    have hds : ∀ c ∈ ds, c.isDigit = true := fun c hc => hd c (List.mem_append_right _ hc)
    have hf := digitRun_append hds hends
    have hne' : whole.map (·.toNat - 48) ++ ds.map (·.toNat - 48) ≠ [] := by
      rw [← List.map_append]
      simpa using hne
    simp only [Decimal.readUnsigned?, text, List.append_assoc, List.cons_append, hr,
      Decimal.fractionRun, hf]
    simp [decimal, digits, Int.sub_eq_add_neg]

theorem Literal.readUnsigned?_text (l : Literal) :
    Decimal.readUnsigned? l.text = some l.decimal := by
  have h := l.readUnsigned?_append [] (by simp)
  rw [List.append_nil] at h
  simpa [Decimal.power?] using h

theorem Literal.read?_text (l : Literal) : Double.read? l.text = some l.value := by
  have hu := l.readUnsigned?_text
  obtain ⟨c, rest, ht, hc⟩ := l.text_eq_cons
  rw [ht] at hu ⊢
  simp [Double.read?, Decimal.read?, sign_of_isDigit hc, hu, value]

theorem Literal.mem_text {l : Literal} {c : Char} (h : c ∈ l.text) :
    c.isDigit = true ∨ c = '.' := by
  obtain ⟨whole, fraction?, hd, hne⟩ := l
  cases fraction? with
  | none => exact Or.inl (hd c (List.mem_append_left _ h))
  | some ds =>
    rcases List.mem_append.mp h with h | h
    · exact Or.inl (hd c (List.mem_append_left _ h))
    · rcases List.mem_cons.mp h with h | h
      · exact Or.inr h
      · exact Or.inl (hd c (List.mem_append_right _ h))

def Literal.Ends (l : Literal) (rest : List Char) : Prop :=
  ∀ c ∈ rest.head?, c.isDigit = false ∧ (c = '.' → l.fraction? ≠ none)

theorem literalRun_digits {ds rest : List Char} (pointSeen : Bool)
    (hds : ∀ c ∈ ds, c.isDigit = true) :
    literalRun pointSeen (ds ++ rest) = ds ++ literalRun pointSeen rest := by
  induction ds with
  | nil => rfl
  | cons c ds ih =>
    have hc := hds c (by simp)
    have hp : c ≠ '.' := ne_of_isDigit hc (by decide)
    simp [literalRun, hp, hc, ih fun d hd => hds d (List.mem_cons_of_mem c hd)]

theorem literalRun_eq_nil {pointSeen : Bool} {rest : List Char}
    (h : ∀ c ∈ rest.head?, c.isDigit = false ∧ (c = '.' → pointSeen = true)) :
    literalRun pointSeen rest = [] := by
  cases rest with
  | nil => rfl
  | cons c rest =>
    obtain ⟨hd, hp⟩ := h c rfl
    by_cases hc : c = '.'
    · simp [literalRun, hc, hp hc]
    · simp [literalRun, hc, hd]

theorem Literal.literalRun_text_append {l : Literal} {rest : List Char} (h : l.Ends rest) :
    literalRun false (l.text ++ rest) = l.text := by
  obtain ⟨whole, fraction?, hd, hne⟩ := l
  have hw : ∀ c ∈ whole, c.isDigit = true := fun c hc => hd c (List.mem_append_left _ hc)
  cases fraction? with
  | none =>
    have hn : literalRun false rest = [] :=
      literalRun_eq_nil fun c hc => ⟨(h c hc).1, fun he => absurd rfl ((h c hc).2 he)⟩
    simp [text, literalRun_digits false hw, hn]
  | some ds =>
    have hf : ∀ c ∈ ds, c.isDigit = true := fun c hc => hd c (List.mem_append_right _ hc)
    have hn : literalRun true rest = [] := literalRun_eq_nil fun c hc => ⟨(h c hc).1, fun _ => rfl⟩
    simp [text, literalRun_digits false hw, literalRun, literalRun_digits true hf, hn]

/-- `Escape c d`: behind a backslash the character `c` stands for `d`. -/
inductive Escape : Char → Char → Prop
  | newline : Escape 'n' '\n'
  | tab : Escape 't' '\t'
  | carriageReturn : Escape 'r' '\r'
  | itself {c : Char} (h : c ∉ ['n', 't', 'r']) : Escape c c

theorem Escape.unescape_eq {c d : Char} (h : Escape c d) : unescape c = d := by
  cases h with
  | itself h =>
    simp only [List.mem_cons, List.not_mem_nil, or_false, not_or] at h
    rw [unescape, if_neg h.1, if_neg h.2.1, if_neg h.2.2]
  | _ => rfl

theorem escape_unescape (c : Char) : Escape c (unescape c) := by
  by_cases h : c ∈ ['n', 't', 'r']
  · simp only [List.mem_cons, List.not_mem_nil, or_false] at h
    rcases h with rfl | rfl | rfl
    · exact .newline
    · exact .tab
    · exact .carriageReturn
  · have hself : Escape c c := .itself h
    rwa [hself.unescape_eq]

/-- `Escaped s body`: between quotes `body` stands for the text `s`. A character may stand for
itself, except a quote or a backslash, or follow a backslash. -/
inductive Escaped : List Char → List Char → Prop
  | nil : Escaped [] []
  | plain {c : Char} {s body : List Char} (hq : c ≠ '"') (hb : c ≠ '\\') (h : Escaped s body) :
      Escaped (c :: s) (c :: body)
  | escape {c d : Char} {s body : List Char} (hc : Escape c d) (h : Escaped s body) :
      Escaped (d :: s) ('\\' :: c :: body)

theorem textBody_of_escaped {s body : List Char} (h : Escaped s body) (rest : List Char) :
    textBody (body ++ '"' :: rest) = some (s, body.length + 1) := by
  induction h with
  | nil => simp [textBody]
  | plain _ hb _ ih => simp [textBody, hb, ih]
  | escape hc _ ih => simp [textBody, hc.unescape_eq, ih]

/-- `Lexeme t w`: the token `t` may be written as `w`. -/
inductive Lexeme : Token → List Char → Prop
  | field {name inner : List Char} (hb : '\x7d' ∉ inner) (ht : Text.trimList inner = name)
      (hn : name ≠ []) : Lexeme (.field (String.ofList name)) ('\x7b' :: (inner ++ ['\x7d']))
  | text {s body : List Char} (h : Escaped s body) :
      Lexeme (.text (String.ofList s)) ('"' :: (body ++ ['"']))
  | number (l : Literal) (h : l.value.isFinite = true) : Lexeme (.number l.value) l.text
  | operator (op : Operator) : Lexeme (.operator op) [op.symbol]
  | left : Lexeme .left ['(']
  | right : Lexeme .right [')']

theorem Lexeme.number_of_value {x : Float} (l : Literal) (hv : l.value = x)
    (hx : x.isFinite = true) : Lexeme (.number x) l.text := by
  subst hv
  exact .number l hx

/-- The lexeme `w` ends where `rest` begins: only a literal could go on there. -/
def EndsBefore (w rest : List Char) : Prop := ∀ l : Literal, l.text = w → l.Ends rest

def gaps : List Char := [' ', '\t', '\r', '\n']

theorem isGap_iff {c : Char} : isGap c = true ↔ c ∈ gaps := by simp [isGap, gaps, or_assoc]

/-- `Lexed ts s`: the text `s` is a row of gaps and lexemes, and these stand for `ts`. -/
inductive Lexed : List Token → List Char → Prop
  | nil : Lexed [] []
  | gap {c : Char} {ts : List Token} {s : List Char} (hc : c ∈ gaps) (h : Lexed ts s) :
      Lexed ts (c :: s)
  | lexeme {t : Token} {w : List Char} {ts : List Token} {s : List Char} (hw : Lexeme t w)
      (he : EndsBefore w s) (h : Lexed ts s) : Lexed (t :: ts) (w ++ s)

theorem takeWhile_inner {inner : List Char} (hb : '\x7d' ∉ inner) (after : List Char) :
    (inner ++ '\x7d' :: after).takeWhile (· ≠ '\x7d') = inner := by
  have hp : ∀ c ∈ inner, decide (c ≠ '\x7d') = true := by
    intro c hc
    have hne : c ≠ '\x7d' := fun h => hb (h ▸ hc)
    simpa using hne
  rw [List.takeWhile_append_of_pos hp]
  simp

theorem lexeme_field {inner : List Char} (hb : '\x7d' ∉ inner) (hn : Text.trimList inner ≠ [])
    (position : Nat) (rest : List Char) :
    lexeme position '\x7b' (inner ++ '\x7d' :: rest) =
      .ok (.field (String.ofList (Text.trimList inner)), inner.length + 1) := by
  simp only [lexeme, takeWhile_inner hb, if_true]
  rw [if_neg (by simp)]

theorem lexeme_text {s body : List Char} (h : Escaped s body) (position : Nat)
    (rest : List Char) :
    lexeme position '"' (body ++ '"' :: rest) = .ok (.text (String.ofList s), body.length + 1) := by
  simp [lexeme, textBody_of_escaped h]

theorem lexeme_number {l : Literal} (hl : l.value.isFinite = true) {rest : List Char}
    (he : l.Ends rest) {c : Char} {tail : List Char} (ht : l.text = c :: tail)
    (hc : c.isDigit = true ∨ c = '.') (position : Nat) :
    lexeme position c (tail ++ rest) = .ok (.number l.value, tail.length) := by
  have hr := Literal.literalRun_text_append he
  have hv := l.read?_text
  rw [ht] at hr hv
  simp only [List.cons_append] at hr
  have hne : c ≠ '\x7b' ∧ c ≠ '"' ∧ c ≠ '(' ∧ c ≠ ')' := by
    refine ⟨?_, ?_, ?_, ?_⟩ <;> rintro rfl <;> simp at hc
  simp [lexeme, hne, hc.symm, hr, hv, hl]

theorem lexeme_operator (op : Operator) (position : Nat) (rest : List Char) :
    lexeme position op.symbol rest = .ok (.operator op, 0) := by
  cases op <;> simp [lexeme, Operator.symbol, Operator.ofSymbol?]

theorem isGap_of_literal {c : Char} (h : c.isDigit = true ∨ c = '.') : isGap c = false := by
  rcases h with hc | rfl
  · have hne (d : Char) (hd : d.isDigit = false) : c ≠ d := ne_of_isDigit hc hd
    simp [isGap, hne ' ' (by decide), hne '\t' (by decide), hne '\r' (by decide),
      hne '\n' (by decide)]
  · decide

theorem lexeme_of_lexeme {t : Token} {w rest : List Char} (hw : Lexeme t w)
    (he : EndsBefore w rest) (position : Nat) :
    ∃ c tail, w = c :: tail ∧ isGap c = false ∧
      lexeme position c (tail ++ rest) = .ok (t, tail.length) := by
  cases hw with
  | field hb ht hn =>
    subst ht
    refine ⟨_, _, rfl, by decide, ?_⟩
    simpa using lexeme_field hb hn position rest
  | text h =>
    refine ⟨_, _, rfl, by decide, ?_⟩
    simpa using lexeme_text h position rest
  | number l h =>
    obtain ⟨c, tail, ht, hc⟩ := l.text_eq_cons
    exact ⟨c, tail, ht, isGap_of_literal hc, lexeme_number h (he l rfl) ht hc position⟩
  | operator op => exact ⟨_, _, rfl, by cases op <;> decide, lexeme_operator op position rest⟩
  | left => exact ⟨_, _, rfl, by decide, by simp [lexeme]⟩
  | right => exact ⟨_, _, rfl, by decide, by simp [lexeme]⟩

theorem scan_of_lexed {ts : List Token} {s : List Char} (h : Lexed ts s) (position : Nat) :
    scan position s = .ok ts := by
  induction h generalizing position with
  | nil => rw [scan]
  | gap hc _ ih => simp [scan, isGap_iff.mpr hc, ih]
  | lexeme hw he _ ih =>
    obtain ⟨c, tail, rfl, hg, hl⟩ := lexeme_of_lexeme hw he position
    simp [scan, hg, hl, ih, Except.map]

end FormulaTable.Formula
