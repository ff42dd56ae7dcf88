import FormulaTable.Formula.Compiled
import FormulaTable.Proofs.Formula.Lexeme
import FormulaTable.Proofs.Formula.Meaning
import FormulaTable.Proofs.Text.Trim

/-!
# Formulas as texts

All the ways to type an expression tree. Whatever the parentheses, gaps and escapes, such a text
compiles, and evaluating it gives the tree's value on every row.
-/

namespace FormulaTable.Formula

namespace Tree

/-- `Rendered least e s`: the text `s` writes the tree `e`, with no operator outside parentheses
that binds less tightly than `least`. -/
inductive Rendered : Nat → Tree → List Char → Prop
  | leaf {least : Nat} {e : Tree} {t : Token} {w : List Char} (h : Leaf e t) (hw : Lexeme t w) :
      Rendered least e w
  | paren {least : Nat} {e : Tree} {s : List Char} (h : Rendered 0 e s) :
      Rendered least e ('(' :: (s ++ [')']))
  | sum {least : Nat} {op : Operator} {l r : Tree} {ls rs : List Char}
      (hop : op = .add ∨ op = .sub) (hp : least ≤ 1) (hl : Rendered 1 l ls)
      (hr : Rendered 2 r rs) : Rendered least (.binary op l r) (ls ++ op.symbol :: rs)
  | product {least : Nat} {op : Operator} {l r : Tree} {ls rs : List Char}
      (hop : op = .mul ∨ op = .div) (hp : least ≤ 2) (hl : Rendered 2 l ls)
      (hr : Rendered 3 r rs) : Rendered least (.binary op l r) (ls ++ op.symbol :: rs)
  | gapBefore {least : Nat} {e : Tree} {c : Char} {s : List Char} (hc : c ∈ gaps)
      (h : Rendered least e s) : Rendered least e (c :: s)
  | gapAfter {least : Nat} {e : Tree} {c : Char} {s : List Char} (hc : c ∈ gaps)
      (h : Rendered least e s) : Rendered least e (s ++ [c])

/-- There are no curly double quotes in the tree's texts and names. -/
def Straight : Tree → Prop
  | number _ => True
  | text s => '“' ∉ s.toList ∧ '”' ∉ s.toList
  | field name => '“' ∉ name.toList ∧ '”' ∉ name.toList
  | binary _ l r => l.Straight ∧ r.Straight

end Tree

/-- `Typed s raw`: `raw` is `s` between blanks, perhaps after one equals sign. -/
inductive Typed (s : List Char) : List Char → Prop
  | bare {before after : List Char} (hb : ∀ c ∈ before, Text.isBlank c = true)
      (ha : ∀ c ∈ after, Text.isBlank c = true) : Typed s (before ++ s ++ after)
  | equals {before between after : List Char} (hb : ∀ c ∈ before, Text.isBlank c = true)
      (hm : ∀ c ∈ between, Text.isBlank c = true) (ha : ∀ c ∈ after, Text.isBlank c = true) :
      Typed s (before ++ '=' :: (between ++ s) ++ after)

def Stops (rest : List Char) : Prop := ∀ c ∈ rest.head?, c.isDigit = false ∧ c ≠ '.'

theorem Stops.endsBefore {rest : List Char} (h : Stops rest) (w : List Char) :
    EndsBefore w rest := fun _ _ c hc => ⟨(h c hc).1, fun he => absurd he (h c hc).2⟩

theorem stops_cons {c : Char} (hd : c.isDigit = false) (hp : c ≠ '.') (rest : List Char) :
    Stops (c :: rest) := by
  intro d hd'
  cases hd'
  exact ⟨hd, hp⟩

theorem stops_symbol (op : Operator) (rest : List Char) : Stops (op.symbol :: rest) := by
  cases op <;> exact stops_cons (by decide) (by decide) rest

theorem stops_gap {c : Char} (hc : c ∈ gaps) (rest : List Char) : Stops (c :: rest) := by
  fin_cases hc <;> exact stops_cons (by decide) (by decide) rest

theorem endsBefore_of_not_digit {c : Char} {w : List Char} (hd : c.isDigit = false) (hp : c ≠ '.')
    (rest : List Char) : EndsBefore (c :: w) rest := by
  intro l hl
  obtain ⟨d, tail, ht, hc⟩ := l.text_eq_cons
  rw [hl] at ht
  cases ht
  rcases hc with hc | hc
  · simp [hd] at hc
  · exact absurd hc hp

theorem endsBefore_symbol (op : Operator) (rest : List Char) : EndsBefore [op.symbol] rest := by
  cases op <;> exact endsBefore_of_not_digit (by decide) (by decide) rest

/-- The text `s` is made of lexemes of `ts`, whatever stands behind it. -/
def LexedThrough (ts : List Token) (s : List Char) : Prop :=
  ∀ {more rest}, Stops rest → Lexed more rest → Lexed (ts ++ more) (s ++ rest)

theorem LexedThrough.binary {ts us : List Token} {ls rs : List Char} (hl : LexedThrough ts ls)
    (hr : LexedThrough us rs) (op : Operator) :
    LexedThrough (ts ++ .operator op :: us) (ls ++ op.symbol :: rs) := by
  intro more rest hs hrest
  have hop : Lexed (.operator op :: (us ++ more)) (op.symbol :: (rs ++ rest)) :=
    .lexeme (.operator op) (endsBefore_symbol op _) (hr hs hrest)
  simpa using hl (stops_symbol op _) hop

theorem Tree.Rendered.exists_written {least : Nat} {e : Tree} {s : List Char}
    (h : e.Rendered least s) : ∃ ts, e.Written least ts ∧ LexedThrough ts s := by
  induction h with
  | leaf h hw => exact ⟨_, .leaf h, fun hs hr => .lexeme hw (hs.endsBefore _) hr⟩
  | @paren least e s _ ih =>
    obtain ⟨ts, hw, hl⟩ := ih
    refine ⟨_, .paren hw, fun {more rest} hs hr => ?_⟩
    have hclose : Lexed (.right :: more) (')' :: rest) :=
      .lexeme .right (endsBefore_of_not_digit (by decide) (by decide) rest) hr
    have hin := hl (stops_cons (by decide) (by decide) rest) hclose
    have hopen : Lexed (.left :: (ts ++ .right :: more)) ('(' :: (s ++ ')' :: rest)) :=
      .lexeme .left (endsBefore_of_not_digit (by decide) (by decide) _) hin
    simpa using hopen
  | sum hop hp _ _ ihl ihr =>
    obtain ⟨ts, hwl, hll⟩ := ihl
    obtain ⟨us, hwr, hlr⟩ := ihr
    exact ⟨_, .sum hop hp hwl hwr, hll.binary hlr _⟩
  | product hop hp _ _ ihl ihr =>
    obtain ⟨ts, hwl, hll⟩ := ihl
    obtain ⟨us, hwr, hlr⟩ := ihr
    exact ⟨_, .product hop hp hwl hwr, hll.binary hlr _⟩
  | gapBefore hc _ ih =>
    obtain ⟨ts, hw, hl⟩ := ih
    exact ⟨ts, hw, fun hs hr => .gap hc (hl hs hr)⟩
  | gapAfter hc _ ih =>
    obtain ⟨ts, hw, hl⟩ := ih
    refine ⟨ts, hw, fun {more rest} hs hr => ?_⟩
    simpa using hl (stops_gap hc rest) (.gap hc hr)

theorem Tree.Rendered.exists_lexed {least : Nat} {e : Tree} {s : List Char}
    (h : e.Rendered least s) : ∃ ts, e.Written least ts ∧ Lexed ts s := by
  obtain ⟨ts, hw, hl⟩ := h.exists_written
  refine ⟨ts, hw, ?_⟩
  simpa using @hl [] [] (by simp [Stops]) .nil

theorem straighten_of_ne {c : Char} (h₁ : c ≠ '“') (h₂ : c ≠ '”') : straighten c = c := by
  simp [straighten, h₁, h₂]

theorem straighten_of_isDigit {c : Char} (h : c.isDigit = true) : straighten c = c :=
  straighten_of_ne (ne_of_isDigit h (by decide)) (ne_of_isDigit h (by decide))

theorem straighten_of_isBlank {c : Char} (h : Text.isBlank c = true) : straighten c = c := by
  refine straighten_of_ne ?_ ?_ <;> rintro rfl <;> exact absurd h (by decide)

theorem isBlank_of_mem_gaps {c : Char} (h : c ∈ gaps) : Text.isBlank c = true := by
  fin_cases h <;> rfl

theorem Escape.straighten_eq {c d : Char} (h : Escape c d) (hd : straighten d = d) :
    straighten c = c := by
  cases h with
  | itself _ => exact hd
  | _ => decide

theorem Escaped.straighten_body {s body : List Char} (h : Escaped s body)
    (hs : ∀ c ∈ s, straighten c = c) : ∀ c ∈ body, straighten c = c := by
  induction h with
  | nil => simp
  | plain _ _ _ ih =>
    rw [List.forall_mem_cons] at hs ⊢
    exact ⟨hs.1, ih hs.2⟩
  | escape hc _ ih =>
    rw [List.forall_mem_cons] at hs
    rw [List.forall_mem_cons, List.forall_mem_cons]
    exact ⟨by decide, hc.straighten_eq hs.1, ih hs.2⟩

theorem straighten_of_not_mem {s : List Char} (h : '“' ∉ s ∧ '”' ∉ s) :
    ∀ c ∈ s, straighten c = c := by
  intro c hc
  exact straighten_of_ne (fun he => h.1 (he ▸ hc)) (fun he => h.2 (he ▸ hc))

theorem Tree.Leaf.straighten_lexeme {e : Tree} {t : Token} {w : List Char} (h : e.Leaf t)
    (hw : Lexeme t w) (he : e.Straight) : ∀ c ∈ w, straighten c = c := by
  cases hw with
  | @field name inner _ ht _ =>
    cases h
    have hname : ∀ c ∈ name, straighten c = c :=
      straighten_of_not_mem (by simpa [Tree.Straight] using he)
    rw [List.forall_mem_cons, List.forall_mem_append, List.forall_mem_singleton]
    refine ⟨by decide, fun c hc => ?_, by decide⟩
    rcases Text.mem_trimBy_or hc with hk | hb
    · exact hname c (ht ▸ hk)
    · exact straighten_of_isBlank hb
  | @text s body hb =>
    cases h
    have hs : ∀ c ∈ s, straighten c = c :=
      straighten_of_not_mem (by simpa [Tree.Straight] using he)
    rw [List.forall_mem_cons, List.forall_mem_append, List.forall_mem_singleton]
    exact ⟨by decide, hb.straighten_body hs, by decide⟩
  | number l _ =>
    intro c hc
    rcases l.mem_text hc with hd | rfl
    · exact straighten_of_isDigit hd
    · decide
  | operator op => cases h
  | left => cases h
  | right => cases h

theorem Tree.Rendered.straighten_eq {least : Nat} {e : Tree} {s : List Char}
    (h : e.Rendered least s) (he : e.Straight) : ∀ c ∈ s, straighten c = c := by
  induction h with
  | leaf h hw => exact h.straighten_lexeme hw he
  | paren _ ih =>
    rw [List.forall_mem_cons, List.forall_mem_append, List.forall_mem_singleton]
    exact ⟨by decide, ih he, by decide⟩
  | @sum _ op _ _ _ _ _ _ _ _ ihl ihr | @product _ op _ _ _ _ _ _ _ _ ihl ihr =>
    rw [List.forall_mem_append, List.forall_mem_cons]
    exact ⟨ihl he.1, by cases op <;> decide, ihr he.2⟩
  | gapBefore hc _ ih =>
    rw [List.forall_mem_cons]
    exact ⟨straighten_of_isBlank (isBlank_of_mem_gaps hc), ih he⟩
  | gapAfter hc _ ih =>
    rw [List.forall_mem_append, List.forall_mem_singleton]
    exact ⟨ih he, straighten_of_isBlank (isBlank_of_mem_gaps hc)⟩

theorem isBlank_literal {c : Char} (h : c.isDigit = true ∨ c = '.') : Text.isBlank c = false := by
  rcases h with h | rfl
  · exact Text.isBlank_of_isDigit h
  · decide

theorem Lexeme.head {t : Token} {w : List Char} (h : Lexeme t w) :
    ∃ c tail, w = c :: tail ∧ Text.isBlank c = false ∧ c ≠ '=' := by
  cases h with
  | field _ _ _ => exact ⟨_, _, rfl, by decide, by decide⟩
  | text _ => exact ⟨_, _, rfl, by decide, by decide⟩
  | number l _ =>
    obtain ⟨c, tail, ht, hc⟩ := l.text_eq_cons
    refine ⟨c, tail, ht, isBlank_literal hc, ?_⟩
    rintro rfl
    simp at hc
  | operator op => exact ⟨_, _, rfl, by cases op <;> decide, by cases op <;> decide⟩
  | left => exact ⟨_, _, rfl, by decide, by decide⟩
  | right => exact ⟨_, _, rfl, by decide, by decide⟩

theorem Lexeme.getLast {t : Token} {w : List Char} (h : Lexeme t w) :
    ∀ c ∈ w.getLast?, Text.isBlank c = false := by
  intro c hc
  cases h with
  | field _ _ _ =>
    simp [List.getLast?_cons] at hc
    subst hc
    decide
  | text _ =>
    simp [List.getLast?_cons] at hc
    subst hc
    decide
  | number l _ => exact isBlank_literal (l.mem_text (List.mem_of_getLast? hc))
  | operator op =>
    cases hc
    cases op <;> decide
  | left => cases hc; decide
  | right => cases hc; decide

theorem Lexed.dropWhile {ts : List Token} {s : List Char} (h : Lexed ts s) :
    Lexed ts (s.dropWhile Text.isBlank) := by
  induction h with
  | nil => exact .nil
  | gap hc _ ih =>
    rw [List.dropWhile_cons_of_pos (isBlank_of_mem_gaps hc)]
    exact ih
  | lexeme hw he h _ =>
    obtain ⟨c, tail, rfl, hb, -⟩ := hw.head
    rw [List.cons_append, List.dropWhile_cons_of_neg (by simp [hb])]
    exact .lexeme hw he h

theorem Lexed.trimRight {ts : List Token} {s : List Char} (h : Lexed ts s) :
    Lexed ts (Text.trimRightBy Text.isBlank s) := by
  induction h with
  | nil => exact .nil
  | gap hc h ih =>
    rw [Text.trimRightBy]
    split
    · next hs =>
      rw [hs] at ih
      rw [if_pos (isBlank_of_mem_gaps hc)]
      exact ih
    · exact .gap hc ih
  | lexeme hw he _ ih =>
    rw [Text.trimRightBy_append_of_getLast hw.getLast]
    exact .lexeme hw (fun l hl c hc => he l hl c (Text.mem_head?_of_trimRightBy hc)) ih

theorem Lexed.trim {ts : List Token} {s : List Char} (h : Lexed ts s) :
    Lexed ts (Text.trimList s) := h.dropWhile.trimRight

theorem Lexed.head_ne {ts : List Token} {s : List Char} (h : Lexed ts s) :
    ∀ c ∈ s.head?, c ≠ '=' := by
  intro d hd
  cases h with
  | nil => cases hd
  | gap hc _ =>
    cases hd
    rintro rfl
    exact absurd hc (by decide)
  | lexeme hw _ _ =>
    obtain ⟨c, tail, rfl, -, hne⟩ := hw.head
    cases hd
    exact hne

theorem Lexed.ne_nil {ts : List Token} {s : List Char} (h : Lexed ts s) (hts : ts ≠ []) :
    s ≠ [] := by
  cases h with
  | nil => exact absurd rfl hts
  | gap _ _ => simp
  | lexeme hw _ _ =>
    obtain ⟨c, tail, rfl, -, -⟩ := hw.head
    simp

theorem Tree.Written.ne_nil {least : Nat} {e : Tree} {ts : List Token} (h : e.Written least ts) :
    ts ≠ [] := by
  cases h <;> simp

theorem trimList_equals {before s after : List Char}
    (hb : ∀ c ∈ before, Text.isBlank c = true) (ha : ∀ c ∈ after, Text.isBlank c = true) :
    Text.trimList (before ++ '=' :: s ++ after) = '=' :: Text.trimRightBy Text.isBlank s := by
  have hq : Text.isBlank '=' = false := by decide
  rw [Text.trimList, Text.trimBy_append_of_all hb _ ha, Text.trimBy,
    List.dropWhile_cons_of_neg (by simp [hq]), Text.trimRightBy_cons_of_not hq]

theorem normalize_of_typed {s raw : List Char} (h : Typed s raw)
    (hs : ∀ c ∈ (Text.trimList s).head?, c ≠ '=') :
    normalize (String.ofList raw) = String.ofList ((Text.trimList s).map straighten) := by
  cases h with
  | bare hb ha =>
    rw [normalize, String.toList_ofList, Text.trimList, Text.trimBy_append_of_all hb s ha]
    split
    · next rest hrest => exact absurd rfl (hs '=' (by rw [Text.trimList, hrest]; rfl))
    · rfl
  | @equals before between after hb hm ha =>
    have ht : Text.trimList (Text.trimRightBy Text.isBlank (between ++ s)) = Text.trimList s := by
      have hnone : ∀ c ∈ ([] : List Char), Text.isBlank c = true := by simp
      have hend := Text.trimBy_append_of_all hm s hnone
      rw [List.append_nil] at hend
      rw [Text.trimList, Text.trimBy_trimRightBy, hend, Text.trimList]
    simp only [normalize, String.toList_ofList, trimList_equals hb ha, ht]

theorem compile_of_rendered {e : Tree} {s raw : List Char} (hs : e.Rendered 0 s)
    (hq : e.Straight) (hraw : Typed s raw) :
    ∃ ts, compile (String.ofList raw) =
      .ok ⟨String.ofList raw, e.postorder, Token.fields ts⟩ := by
  obtain ⟨ts, hw, hl⟩ := hs.exists_lexed
  have ht : Lexed ts (Text.trimList s) := hl.trim
  have hn : normalize (String.ofList raw) = String.ofList (Text.trimList s) := by
    have hst : (Text.trimList s).map straighten = Text.trimList s := by
      have hid : ∀ c ∈ Text.trimList s, straighten c = id c :=
        fun c hc => hs.straighten_eq hq c (Text.mem_of_mem_trimBy hc)
      rw [List.map_congr_left hid, List.map_id]
    rw [normalize_of_typed hraw ht.head_ne, hst]
  have hne : (String.ofList (Text.trimList s)).isEmpty = false := by
    simpa using ht.ne_nil hw.ne_nil
  refine ⟨ts, ?_⟩
  simp [compile, hn, hne, tokens, scan_of_lexed ht, postfixOf_of_written hw, bind, Except.bind]

end FormulaTable.Formula
