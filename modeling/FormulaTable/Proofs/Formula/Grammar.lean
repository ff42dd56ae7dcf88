import FormulaTable.Proofs.Double.Rounding
import FormulaTable.Proofs.Formula.Rendering

/-!
# The lexical grammar

A text has tokens just when it falls into gaps and lexemes, and it falls into them in one way only:
what the scanner takes for a token is a lexeme of that token. Each list of tokens that comes out of
some text can be written plainly and read back.
-/

namespace FormulaTable.Formula

theorem escaped_of_textBody {s : List Char} {n : Nat} {rest : List Char}
    (h : textBody rest = some (s, n)) :
    ∃ body tail, Escaped s body ∧ rest = body ++ '"' :: tail ∧ n = body.length + 1 := by
  fun_induction textBody rest generalizing s n with
  | case1 => cases h
  | case2 tail =>
    cases h
    exact ⟨[], tail, .nil, rfl, rfl⟩
  | case3 => cases h
  | case4 c rest ih =>
    obtain ⟨⟨s', n'⟩, hr, he⟩ := Option.map_eq_some_iff.mp h
    cases he
    obtain ⟨body, tail, hbody, rfl, rfl⟩ := ih hr
    exact ⟨_, tail, .escape (escape_unescape c) hbody, rfl, rfl⟩
  | case5 c rest hq hlast hb ih =>
    obtain ⟨⟨s', n'⟩, hr, he⟩ := Option.map_eq_some_iff.mp h
    cases he
    obtain ⟨body, tail, hbody, rfl, rfl⟩ := ih hr
    have hbackslash : c ≠ '\\' := by
      rintro rfl
      cases hbody with
      | nil => exact hb '"' tail rfl rfl
      | plain _ _ _ => exact hb _ _ rfl rfl
      | escape _ _ => exact hb _ _ rfl rfl
    exact ⟨_, tail, .plain hq hbackslash hbody, rfl, rfl⟩

theorem exists_digits (s : List Char) :
    ∃ ds rest, s = ds ++ rest ∧ (∀ c ∈ ds, c.isDigit = true) ∧
      ∀ c ∈ rest.head?, c.isDigit = false := by
  induction s with
  | nil => exact ⟨[], [], rfl, by simp, by simp⟩
  | cons c s ih =>
    by_cases hc : c.isDigit = true
    · obtain ⟨ds, rest, rfl, hds, hrest⟩ := ih
      refine ⟨c :: ds, rest, rfl, ?_, hrest⟩
      intro d hd
      rcases List.mem_cons.mp hd with rfl | hd
      · exact hc
      · exact hds d hd
    · exact ⟨[], c :: s, rfl, by simp, by simpa using hc⟩

theorem literal_or_none (s : List Char) :
    (∃ (l : Literal) (rest : List Char), s = l.text ++ rest ∧ l.Ends rest) ∨
      literalRun false s = [] ∨ literalRun false s = ['.'] := by
  obtain ⟨whole, rest, rfl, hwhole, hrest⟩ := exists_digits s
  by_cases hpoint : ∃ tail, rest = '.' :: tail
  · obtain ⟨tail, rfl⟩ := hpoint
    obtain ⟨fraction, after, rfl, hfraction, hafter⟩ := exists_digits tail
    by_cases hne : whole ++ fraction = []
    · obtain ⟨rfl, rfl⟩ := List.append_eq_nil_iff.mp hne
      have hnil : literalRun true after = [] :=
        literalRun_eq_nil fun c hc => ⟨hafter c hc, fun _ => rfl⟩
      exact .inr (.inr (by simp [literalRun, hnil]))
    · have hdigits : ∀ c ∈ whole ++ fraction, c.isDigit = true := by
        intro c hc
        exact (List.mem_append.mp hc).elim (hwhole c) (hfraction c)
      refine .inl ⟨⟨whole, some fraction, hdigits, hne⟩, after, by simp [Literal.text], ?_⟩
      intro c hc
      exact ⟨hafter c hc, by simp⟩
  · have hend : ∀ c ∈ rest.head?, c ≠ '.' := by
      rintro c hc rfl
      cases rest with
      | nil => cases hc
      | cons d rest =>
        cases hc
        exact hpoint ⟨rest, rfl⟩
    by_cases hne : whole = []
    · subst hne
      refine .inr (.inl (literalRun_eq_nil fun c hc => ?_))
      exact ⟨hrest c hc, fun he => absurd he (hend c hc)⟩
    · refine .inl ⟨⟨whole, none, by simpa using hwhole, by simpa using hne⟩, rest, rfl, ?_⟩
      intro c hc
      exact ⟨hrest c hc, fun he => absurd he (hend c hc)⟩

theorem exists_literal {s : List Char} {x : Float}
    (h : Double.read? (literalRun false s) = some x) :
    ∃ (l : Literal) (rest : List Char), s = l.text ++ rest ∧ literalRun false s = l.text ∧
      l.Ends rest ∧ l.value = x := by
  rcases literal_or_none s with ⟨l, rest, rfl, hends⟩ | hrun | hrun
  · have hrun := Literal.literalRun_text_append hends
    rw [hrun, l.read?_text] at h
    exact ⟨l, rest, rfl, hrun, hends, Option.some.inj h⟩
  · have hnone : Double.read? [] = none := rfl
    rw [hrun, hnone] at h
    cases h
  · have hnone : Double.read? ['.'] = none := by decide
    rw [hrun, hnone] at h
    cases h

theorem eq_symbol_of_ofSymbol? {c : Char} {op : Operator} (h : Operator.ofSymbol? c = some op) :
    c = op.symbol := by
  unfold Operator.ofSymbol? at h
  grind [Operator.symbol]

theorem Literal.endsBefore {l : Literal} {rest : List Char} (h : l.Ends rest) :
    EndsBefore l.text rest := by
  intro l' hl c hc
  refine ⟨(h c hc).1, fun he hnone => ?_⟩
  subst he
  have hpoint : '.' ∈ l'.text := by
    rw [hl]
    obtain ⟨whole, fraction?, hd, hne⟩ := l
    cases fraction? with
    | none => exact absurd rfl ((h '.' hc).2 rfl)
    | some ds => simp [Literal.text]
  obtain ⟨whole, fraction?, hd, hne⟩ := l'
  simp only at hnone
  subst hnone
  have hdigit := hd '.' (List.mem_append_left _ hpoint)
  cases hdigit

/-- The character and the next `n` ones of the text make a lexeme of the token and end it. -/
structure Taken (t : Token) (c : Char) (rest : List Char) (n : Nat) : Prop where
  lexeme : Lexeme t (c :: rest.take n)
  ends : EndsBefore (c :: rest.take n) (rest.drop n)

theorem taken_append {t : Token} {c : Char} {tail after : List Char} (h : Lexeme t (c :: tail))
    (he : EndsBefore (c :: tail) after) : Taken t c (tail ++ after) tail.length := by
  have htake : (tail ++ after).take tail.length = tail := List.take_left
  have hdrop : (tail ++ after).drop tail.length = after := List.drop_left
  exact ⟨by rwa [htake], by rwa [htake, hdrop]⟩

theorem taken_single {t : Token} {c : Char} (h : Lexeme t [c]) (hd : c.isDigit = false)
    (hp : c ≠ '.') (rest : List Char) : Taken t c rest 0 :=
  @taken_append t c [] rest h (endsBefore_of_not_digit hd hp rest)

theorem exists_closing {rest : List Char}
    (h : (rest.takeWhile (· ≠ '\x7d')).length ≠ rest.length) :
    '\x7d' ∉ rest.takeWhile (· ≠ '\x7d') ∧
      ∃ after, rest = rest.takeWhile (· ≠ '\x7d') ++ '\x7d' :: after := by
  have hsplit := List.takeWhile_append_dropWhile (p := (· ≠ '\x7d')) (l := rest)
  refine ⟨fun hmem => ?_, ?_⟩
  · have hne := List.all_eq_true.mp List.all_takeWhile _ hmem
    simp at hne
  · cases hd : rest.dropWhile (· ≠ '\x7d') with
    | nil =>
      rw [hd, List.append_nil] at hsplit
      exact absurd (congrArg List.length hsplit) h
    | cons d after =>
      have hhead := List.head?_dropWhile_not (· ≠ '\x7d') rest
      rw [hd] at hhead
      obtain rfl : d = '\x7d' := by simpa using hhead
      exact ⟨after, by rw [← hd, hsplit]⟩

theorem taken_field {rest name : List Char} (hc : (rest.takeWhile (· ≠ '\x7d')).length ≠ rest.length)
    (hname : Text.trimList (rest.takeWhile (· ≠ '\x7d')) = name) (hn : name ≠ []) :
    Taken (.field (String.ofList name)) '\x7b' rest
      ((rest.takeWhile (· ≠ '\x7d')).length + 1) := by
  obtain ⟨hb, after, hsplit⟩ := exists_closing hc
  generalize rest.takeWhile (· ≠ '\x7d') = inner at *
  have htaken := taken_append (.field hb hname hn)
    (endsBefore_of_not_digit (by decide) (by decide) after)
  rw [hsplit]
  simpa using htaken

theorem taken_text {rest s : List Char} {n : Nat} (h : textBody rest = some (s, n)) :
    Taken (.text (String.ofList s)) '"' rest n := by
  obtain ⟨body, after, hbody, rfl, rfl⟩ := escaped_of_textBody h
  have htaken := taken_append (.text hbody)
    (endsBefore_of_not_digit (by decide) (by decide) after)
  simpa using htaken

theorem taken_number {c : Char} {rest : List Char} {x : Float} (hx : x.isFinite = true)
    (h : Double.read? (literalRun false (c :: rest)) = some x) :
    Taken (.number x) c rest ((literalRun false (c :: rest)).length - 1) := by
  obtain ⟨l, after, hsplit, hrun, hends, rfl⟩ := exists_literal h
  obtain ⟨d, tail, ht, -⟩ := l.text_eq_cons
  have hlexeme : Lexeme (.number l.value) (d :: tail) := ht ▸ .number l hx
  have hend : EndsBefore (d :: tail) after := ht ▸ Literal.endsBefore hends
  rw [hrun, ht]
  rw [ht] at hsplit
  cases hsplit
  exact taken_append hlexeme hend

theorem taken_of_lexeme {position n : Nat} {c : Char} {rest : List Char} {t : Token}
    (h : lexeme position c rest = .ok (t, n)) : Taken t c rest n := by
  unfold lexeme at h
  dsimp only at h
  split at h
  · next hc =>
    subst hc
    split at h
    · cases h
    · next hclosed =>
      split at h
      · cases h
      · next hname =>
        cases h
        exact taken_field hclosed rfl hname
  · split at h
    · next hc =>
      subst hc
      split at h
      · cases h
      · next htext =>
        cases h
        exact taken_text htext
    · split at h
      · next hc =>
        cases h
        subst hc
        exact taken_single .left (by decide) (by decide) rest
      · split at h
        · next hc =>
          cases h
          subst hc
          exact taken_single .right (by decide) (by decide) rest
        · split at h
          · split at h
            · cases h
            · next hx =>
              split at h
              · next hfinite =>
                cases h
                exact taken_number hfinite hx
              · cases h
          · next hnumber =>
            split at h
            · next hop =>
              cases h
              rw [eq_symbol_of_ofSymbol? hop] at hnumber ⊢
              exact taken_single (.operator _) (by simpa using fun h => hnumber (.inr h))
                (fun h => hnumber (.inl h)) rest
            · cases h

inductive Piece
  | gap (c : Char)
  | lexeme (t : Token) (w : List Char)

/-- `Split ps s`: the text `s` is the pieces `ps` one after the other. -/
inductive Split : List Piece → List Char → Prop
  | nil : Split [] []
  | gap {c : Char} {ps : List Piece} {s : List Char} (hc : c ∈ gaps) (h : Split ps s) :
      Split (.gap c :: ps) (c :: s)
  | lexeme {t : Token} {w : List Char} {ps : List Piece} {s : List Char} (hw : Lexeme t w)
      (he : EndsBefore w s) (h : Split ps s) : Split (.lexeme t w :: ps) (w ++ s)

def Piece.tokens (ps : List Piece) : List Token :=
  ps.filterMap fun | .gap _ => none | .lexeme t _ => some t

theorem Split.lexed {ps : List Piece} {s : List Char} (h : Split ps s) :
    Lexed (Piece.tokens ps) s := by
  induction h with
  | nil => exact .nil
  | gap hc _ ih => exact .gap hc ih
  | lexeme hw he _ ih => exact .lexeme hw he ih

theorem exists_split {position : Nat} {s : List Char} {ts : List Token}
    (h : scan position s = .ok ts) : ∃ ps, Split ps s ∧ Piece.tokens ps = ts := by
  fun_induction scan position s generalizing ts with
  | case1 position =>
    cases h
    exact ⟨[], .nil, rfl⟩
  | case2 position c rest hc ih =>
    obtain ⟨ps, hps, rfl⟩ := ih h
    exact ⟨.gap c :: ps, .gap (isGap_iff.mp hc) hps, rfl⟩
  | case3 => cases h
  | case4 position c rest hc t n hl ih =>
    obtain ⟨more, hr, rfl⟩ := map_eq_ok h
    obtain ⟨ps, hps, rfl⟩ := ih hr
    have htaken := taken_of_lexeme hl
    refine ⟨.lexeme t (c :: rest.take n) :: ps, ?_, rfl⟩
    have hsplit := Split.lexeme htaken.lexeme htaken.ends hps
    rwa [List.cons_append, List.take_append_drop] at hsplit

theorem Split.nil_eq {ps : List Piece} (h : Split ps []) : ps = [] := by
  generalize hs : ([] : List Char) = s at h
  cases h with
  | nil => rfl
  | gap hc h => cases hs
  | lexeme hw he h =>
    obtain ⟨c, tail, rfl, -, -⟩ := lexeme_of_lexeme hw he 0
    cases hs

/-- The first character tells a gap from a lexeme, and the scanner how far the lexeme goes. -/
theorem Split.cons_cases {ps : List Piece} {c : Char} {rest : List Char}
    (h : Split ps (c :: rest)) :
    (isGap c = true ∧ ∃ qs, ps = .gap c :: qs ∧ Split qs rest) ∨
    isGap c = false ∧ ∃ t n qs, Formula.lexeme 0 c rest = .ok (t, n) ∧
      ps = .lexeme t (c :: rest.take n) :: qs ∧ Split qs (rest.drop n) := by
  generalize hs : c :: rest = s at h
  cases h with
  | nil => cases hs
  | gap hc h =>
    cases hs
    exact .inl ⟨isGap_iff.mpr hc, _, rfl, h⟩
  | @lexeme t w qs after hw he h =>
    obtain ⟨d, tail, rfl, hgap, hl⟩ := lexeme_of_lexeme hw he 0
    obtain ⟨rfl, rfl⟩ := List.cons.inj hs
    refine .inr ⟨hgap, t, tail.length, qs, hl, ?_, ?_⟩
    · rw [List.append_eq, List.take_left]
    · rwa [List.append_eq, List.drop_left]

theorem Split.unique {ps qs : List Piece} {s : List Char} (hp : Split ps s) (hq : Split qs s) :
    ps = qs := by
  induction hp generalizing qs with
  | nil => exact hq.nil_eq.symm
  | @gap c ps s hc _ ih =>
    rcases hq.cons_cases with ⟨-, more, rfl, hmore⟩ | ⟨hgap, -⟩
    · rw [ih hmore]
    · rw [isGap_iff.mpr hc] at hgap
      cases hgap
  | @lexeme t w ps s hw he _ ih =>
    obtain ⟨c, tail, rfl, hgap, hl⟩ := lexeme_of_lexeme hw he 0
    rcases hq.cons_cases with ⟨hc, -⟩ | ⟨-, t', n, more, hl', rfl, hmore⟩
    · rw [hgap] at hc
      cases hc
    · obtain ⟨rfl, rfl⟩ := Prod.mk.inj (Except.ok.inj (hl.symm.trans hl'))
      rw [List.append_eq, List.drop_left] at hmore
      rw [List.append_eq, List.take_left, ih hmore]

inductive Word
  | field (name : List Char) (hn : name ≠ []) (ht : Text.trimList name = name)
      (hb : '\x7d' ∉ name)
  | text (s : List Char)
  | number (l : Literal) (h : l.value.isFinite = true)
  | operator (op : Operator)
  | left
  | right

def Word.token : Word → Token
  | field name _ _ _ => .field (String.ofList name)
  | text s => .text (String.ofList s)
  | number l _ => .number l.value
  | operator op => .operator op
  | left => .left
  | right => .right

def escape (s : List Char) : List Char :=
  s.flatMap fun c => if c = '"' ∨ c = '\\' then ['\\', c] else [c]

def Word.written : Word → List Char
  | field name _ _ _ => '\x7b' :: (name ++ ['\x7d'])
  | text s => '"' :: (escape s ++ ['"'])
  | number l _ => l.text
  | operator op => [op.symbol]
  | left => ['(']
  | right => [')']

theorem escaped_escape (s : List Char) : Escaped s (escape s) := by
  induction s with
  | nil => exact .nil
  | cons c s ih =>
    rw [escape, List.flatMap_cons]
    split
    · next hc =>
      have hself : Escape c c := by rcases hc with rfl | rfl <;> exact .itself (by decide)
      exact .escape hself ih
    · next hc =>
      simp only [not_or] at hc
      exact .plain hc.1 hc.2 ih

theorem Word.lexeme (word : Word) : Lexeme word.token word.written := by
  cases word with
  | field name hn ht hb => exact .field hb ht hn
  | text s => exact .text (escaped_escape s)
  | number l h => exact .number l h
  | operator op => exact .operator op
  | left => exact .left
  | right => exact .right

theorem Lexeme.exists_word {t : Token} {w : List Char} (h : Lexeme t w) :
    ∃ word : Word, word.token = t := by
  cases h with
  | field hb ht hn =>
    subst ht
    refine ⟨.field _ hn (Text.trimBy_trimBy _) fun hm => hb (Text.mem_of_mem_trimBy hm), rfl⟩
  | @text s body h => exact ⟨.text s, rfl⟩
  | number l h => exact ⟨.number l h, rfl⟩
  | operator op => exact ⟨.operator op, rfl⟩
  | left => exact ⟨.left, rfl⟩
  | right => exact ⟨.right, rfl⟩

theorem Lexed.exists_words {ts : List Token} {s : List Char} (h : Lexed ts s) :
    ∃ words : List Word, words.map Word.token = ts := by
  induction h with
  | nil => exact ⟨[], rfl⟩
  | gap _ _ ih => exact ih
  | lexeme hw _ _ ih =>
    obtain ⟨word, hword⟩ := hw.exists_word
    obtain ⟨words, hwords⟩ := ih
    exact ⟨word :: words, by rw [List.map_cons, hword, hwords]⟩

def spaced (words : List Word) : List Char := [' '].intercalate (words.map Word.written)

theorem lexed_spaced (words : List Word) : Lexed (words.map Word.token) (spaced words) := by
  induction words with
  | nil => exact .nil
  | cons word words ih =>
    cases words with
    | nil =>
      have hend : EndsBefore word.written [] := fun _ _ c hc => by cases hc
      have h : Lexed [word.token] (word.written ++ []) := .lexeme word.lexeme hend .nil
      simpa [spaced] using h
    | cons next words =>
      have hgap : ' ' ∈ gaps := by decide
      have hend : EndsBefore word.written (' ' :: spaced (next :: words)) :=
        (stops_gap hgap _).endsBefore _
      have h := Lexed.lexeme word.lexeme hend (.gap hgap ih)
      simpa [spaced] using h

theorem tokens_ofList {s : List Char} {ts : List Token} (h : Lexed ts s) :
    tokens (String.ofList s) = .ok ts := by
  rw [tokens, String.toList_ofList]
  exact scan_of_lexed h 0

theorem lexed_of_tokens {s : String} {ts : List Token} (h : tokens s = .ok ts) :
    Lexed ts s.toList := by
  obtain ⟨ps, hps, rfl⟩ := exists_split h
  exact hps.lexed

/-- A text has the tokens of its lexemes, in the one way in which it falls into gaps and lexemes;
words with spaces between them are read back, and every list of tokens can be written in words. The
number of a literal is the double nearest to it. -/
theorem tokens_grammar :
    (∀ s ts, tokens s = .ok ts ↔ ∃ ps, Split ps s.toList ∧ Piece.tokens ps = ts) ∧
      (∀ s : String, Subsingleton {ps // Split ps s.toList}) ∧
      (∀ words, tokens (String.ofList (spaced words)) = .ok (words.map Word.token)) ∧
      (∀ ts, (∃ s, tokens s = .ok ts) ↔ ∃ words : List Word, words.map Word.token = ts) ∧
      ∀ l : Literal, Double.Rounds l.decimal.value l.value ∧ Double.isNegative l.value = false := by
  refine ⟨?_, ?_, ?_, ?_, ?_⟩
  · intro s ts
    constructor
    · exact exists_split
    · rintro ⟨ps, hps, rfl⟩
      exact scan_of_lexed hps.lexed 0
  · intro s
    exact ⟨fun ps qs => Subtype.ext (ps.2.unique qs.2)⟩
  · intro words
    exact tokens_ofList (lexed_spaced words)
  · intro ts
    constructor
    · rintro ⟨s, h⟩
      exact (lexed_of_tokens h).exists_words
    · rintro ⟨words, rfl⟩
      exact ⟨_, tokens_ofList (lexed_spaced words)⟩
  · intro l
    exact ⟨Double.rounds_ofDecimal false l.decimal, Double.isNegative_ofDecimal false l.decimal⟩

theorem tokens_grammar_escapes :
    let s := "{ A }\t\"a\\n\\t\\r\\q\\\"\\\\\"\r\n* (.5"
    let ts : List Token :=
      [.field "A", .text "a\n\t\rq\"\\", .operator .mul, .left, .number 0.5]
    tokens s = .ok ts ∧ ∃ ps, Split ps s.toList ∧ Piece.tokens ps = ts := by
  intro s ts
  have hts : tokens s = .ok ts := by decide +kernel
  obtain ⟨hsplit, -⟩ := tokens_grammar
  exact ⟨hts, (hsplit s ts).mp hts⟩

example : tokens "1.2.3" = .ok [.number 1.2, .number 0.3] := by decide +kernel

end FormulaTable.Formula
