import FormulaTable.Proofs.Formula.Rejection

/-!
# Where a text breaks off

Scanning takes gaps and lexemes from the front of a text until it ends or until no lexeme starts
where one is due. Such a place is the same whatever comes behind it, there is one at most, and what
stands there says why the text has no tokens.
-/

namespace FormulaTable.Formula

def StartsNothing (c : Char) : Prop := c ∉ gaps ∧ ∀ t w, ¬ Lexeme t (c :: w)

/-- `Unreadable position s e`: no lexeme stands at the front of `s`, and `e` says why. -/
inductive Unreadable (position : Nat) : List Char → CompileError → Prop
  | brace {rest : List Char} (h : '\x7d' ∉ rest) :
      Unreadable position ('\x7b' :: rest) .unmatchedBrace
  | field {inner rest : List Char} (hb : '\x7d' ∉ inner)
      (hi : ∀ c ∈ inner, Text.isBlank c = true) :
      Unreadable position ('\x7b' :: (inner ++ '\x7d' :: rest)) .emptyField
  | text {rest : List Char} (h : ∀ s body after, Escaped s body → rest ≠ body ++ '"' :: after) :
      Unreadable position ('"' :: rest) .unterminatedText
  /-- From halfway beyond the greatest double on no double is nearest. -/
  | number {l : Literal} {rest : List Char} (he : l.Ends rest)
      (h : 2 ^ 1024 - 2 ^ 970 ≤ l.decimal.value) :
      Unreadable position (l.text ++ rest) (.numberOutOfRange (String.ofList l.text))
  | point {rest : List Char} (h : ∀ c ∈ rest.head?, c.isDigit = false) :
      Unreadable position ('.' :: rest) (.lonePoint position)
  | other {c : Char} {rest : List Char} (h : StartsNothing c) :
      Unreadable position (c :: rest) (.unexpectedChar c position)

theorem Literal.isFinite_value_iff (l : Literal) :
    l.value.isFinite = true ↔ l.decimal.value < 2 ^ 1024 - 2 ^ 970 :=
  (Double.rounds_ofDecimal false l.decimal).finite

def Literal.single (c : Char) (h : c.isDigit = true) : Literal where
  whole := [c]
  fraction? := none
  isDigit := by simpa using h
  ne_nil := by simp

theorem Literal.isFinite_single {c : Char} (h : c.isDigit = true) :
    (single c h).value.isFinite = true := by
  have hc : c.toNat ≤ 57 := by
    simp only [Char.isDigit, Bool.and_eq_true, decide_eq_true_eq] at h
    exact h.2
  have hdecimal : (single c h).decimal = ⟨c.toNat - 48, 0⟩ := by
    simp [single, decimal, digits, Decimal.ofDigits]
  have hdigit : ((c.toNat - 48 : Nat) : ℚ) ≤ 9 := by exact_mod_cast (by omega)
  have hhalf : (9 : ℚ) < 2 ^ 970 :=
    calc (9 : ℚ) < 2 ^ 4 := by norm_num
      _ ≤ 2 ^ 970 := pow_le_pow_right₀ (by norm_num) (by decide)
  have hdouble : (2 : ℚ) * 2 ^ 970 ≤ 2 ^ 1024 := by
    rw [← pow_succ']
    exact pow_le_pow_right₀ (by norm_num) (by decide)
  rw [isFinite_value_iff, hdecimal, Decimal.value, zpow_zero, mul_one]
  generalize (2 : ℚ) ^ 970 = half at hhalf hdouble ⊢
  generalize (2 : ℚ) ^ 1024 = bound at hdouble ⊢
  linarith only [hdigit, hhalf, hdouble]

theorem exists_lexeme_of_isDigit {c : Char} (h : c.isDigit = true) :
    ∃ t w, Lexeme t (c :: w) :=
  ⟨_, [], .number (.single c h) (Literal.isFinite_single h)⟩

theorem endsBefore_nil (w : List Char) : EndsBefore w [] := fun _ _ c hc => by cases hc

theorem literalRun_point {rest : List Char} (h : ∀ c ∈ rest.head?, c.isDigit = false) :
    literalRun false ('.' :: rest) = ['.'] := by
  have hnil : literalRun true rest = [] := literalRun_eq_nil fun c hc => ⟨h c hc, fun _ => rfl⟩
  simp [literalRun, hnil]

theorem head_of_literalRun {rest : List Char} (h : literalRun true rest = []) :
    ∀ c ∈ rest.head?, c.isDigit = false := by
  cases rest with
  | nil => simp
  | cons c rest =>
    intro d hd
    obtain rfl : c = d := Option.some.inj hd
    by_contra hdigit
    simp only [Bool.not_eq_false] at hdigit
    have hpoint : c ≠ '.' := ne_of_isDigit hdigit (by decide)
    simp [literalRun, hpoint, hdigit] at h

section Lexeme
variable {position : Nat} {c : Char} {rest : List Char} {e : CompileError}

theorem unreadable_of_read?_eq_none (hc : c = '.' ∨ c.isDigit = true)
    (h : Double.read? (literalRun false (c :: rest)) = none) :
    Unreadable position (c :: rest) (.lonePoint position) := by
  rcases literal_or_none (c :: rest) with ⟨l, after, hsplit, hends⟩ | hrun | hrun
  · rw [hsplit, Literal.literalRun_text_append hends, l.read?_text] at h
    cases h
  · rcases hc with rfl | hc
    · simp [literalRun] at hrun
    · simp [literalRun, ne_of_isDigit hc (d := '.') (by decide), hc] at hrun
  · rcases hc with rfl | hc
    · refine .point (head_of_literalRun ?_)
      simpa [literalRun] using hrun
    · have hpoint : c ≠ '.' := ne_of_isDigit hc (by decide)
      simp [literalRun, hpoint, hc] at hrun

theorem unreadable_of_not_isFinite {x : Float}
    (h : Double.read? (literalRun false (c :: rest)) = some x) (hx : ¬ x.isFinite = true) :
    Unreadable position (c :: rest)
      (.numberOutOfRange (String.ofList (literalRun false (c :: rest)))) := by
  obtain ⟨l, after, hsplit, hrun, hends, rfl⟩ := exists_literal h
  rw [l.isFinite_value_iff, not_lt] at hx
  rw [hrun, hsplit]
  exact .number hends hx

theorem startsNothing_of_unexpected (hg : isGap c = false) (hb : c ≠ '\x7b') (hq : c ≠ '"')
    (hl : c ≠ '(') (hr : c ≠ ')') (hn : ¬ (c = '.' ∨ c.isDigit = true))
    (ho : Operator.ofSymbol? c = none) : StartsNothing c := by
  refine ⟨by simp [← isGap_iff, hg], fun t w hw => ?_⟩
  obtain ⟨d, tail, hcons, -, hok⟩ := lexeme_of_lexeme hw (endsBefore_nil _) 0
  obtain ⟨rfl, rfl⟩ := List.cons.inj hcons
  rw [lexeme, if_neg hb, if_neg hq, if_neg hl, if_neg hr, if_neg hn, ho] at hok
  cases hok

theorem unreadable_of_lexeme (hg : isGap c = false) (h : lexeme position c rest = .error e) :
    Unreadable position (c :: rest) e := by
  unfold lexeme at h
  extract_lets inner literal at h
  split at h
  · next hc =>
    subst hc
    split at h
    · next hopen =>
      cases h
      have hfront : inner <+: rest := List.takeWhile_prefix _
      have hall := List.takeWhile_eq_self_iff.mp (hfront.eq_of_length hopen)
      exact .brace fun hmem => by simpa using hall _ hmem
    · next hclosed =>
      obtain ⟨hb, after, hsplit⟩ := exists_closing hclosed
      split at h
      · next hblank =>
        cases h
        rw [hsplit]
        exact .field hb (Text.trimBy_eq_nil_iff.mp hblank)
      · cases h
  · next hb =>
    split at h
    · next hc =>
      subst hc
      split at h
      · next hnone =>
        cases h
        refine .text fun s body after hs hrest => ?_
        rw [hrest, textBody_of_escaped hs] at hnone
        cases hnone
      · cases h
    · next hq =>
      split at h
      · cases h
      · next hl =>
        split at h
        · cases h
        · next hr =>
          split at h
          · next hc =>
            split at h
            · next hnone =>
              cases h
              exact unreadable_of_read?_eq_none hc hnone
            · next hsome =>
              split at h
              · cases h
              · next hinfinite =>
                cases h
                exact unreadable_of_not_isFinite hsome hinfinite
          · next hn =>
            split at h
            · cases h
            · next ho =>
              cases h
              exact .other (startsNothing_of_unexpected hg hb hq hl hr hn ho)

theorem lexeme_of_startsNothing (h : StartsNothing c) :
    lexeme position c rest = .error (.unexpectedChar c position) := by
  obtain ⟨-, hnone⟩ := h
  have hb : c ≠ '\x7b' := by
    rintro rfl
    exact hnone _ _ (@Lexeme.field _ ['a'] (by decide) rfl (by decide))
  have hq : c ≠ '"' := by
    rintro rfl
    exact hnone _ _ (.text .nil)
  have hl : c ≠ '(' := by
    rintro rfl
    exact hnone _ _ .left
  have hr : c ≠ ')' := by
    rintro rfl
    exact hnone _ _ .right
  have hn : ¬ (c = '.' ∨ c.isDigit = true) := by
    rintro (rfl | hdigit)
    · exact hnone _ _ (.number ⟨[], some ['0'], by simp, by simp⟩ (by decide +kernel))
    · obtain ⟨t, w, hw⟩ := exists_lexeme_of_isDigit hdigit
      exact hnone t w hw
  have ho : Operator.ofSymbol? c = none := by
    cases ho : Operator.ofSymbol? c with
    | none => rfl
    | some op =>
      rw [eq_symbol_of_ofSymbol? ho] at hnone
      exact absurd (.operator op) (hnone _ _)
  rw [lexeme, if_neg hb, if_neg hq, if_neg hl, if_neg hr, if_neg hn, ho]

theorem lexeme_of_tooLarge {l : Literal} {after tail : List Char} (he : l.Ends after)
    (h : l.value.isFinite = false) (ht : l.text = c :: tail) (hc : c.isDigit = true ∨ c = '.') :
    lexeme position c (tail ++ after) = .error (.numberOutOfRange (String.ofList l.text)) := by
  have hr := Literal.literalRun_text_append he
  have hv := l.read?_text
  rw [ht] at hr hv
  simp only [List.cons_append] at hr
  have hne : c ≠ '\x7b' ∧ c ≠ '"' ∧ c ≠ '(' ∧ c ≠ ')' := by
    refine ⟨?_, ?_, ?_, ?_⟩ <;> rintro rfl <;> simp at hc
  simp [lexeme, hne, hc.symm, hr, hv, h, ht]

theorem Unreadable.lexeme_eq {s : List Char} (h : Unreadable position s e) :
    ∃ c rest, s = c :: rest ∧ isGap c = false ∧ lexeme position c rest = .error e := by
  cases h with
  | @brace rest h =>
    refine ⟨_, _, rfl, by decide, ?_⟩
    have hall : rest.takeWhile (· ≠ '\x7d') = rest :=
      List.takeWhile_eq_self_iff.mpr fun c hc => decide_eq_true fun he => h (he ▸ hc)
    simp only [lexeme, hall, if_true]
  | @field inner rest hb hi =>
    refine ⟨_, _, rfl, by decide, ?_⟩
    have htrim : Text.trimList inner = [] := Text.trimBy_eq_nil_iff.mpr hi
    simp only [lexeme, takeWhile_inner hb, if_true, htrim]
    rw [if_neg (by simp)]
  | @text rest h =>
    refine ⟨_, _, rfl, by decide, ?_⟩
    have hnone : textBody rest = none := by
      rw [Option.eq_none_iff_forall_not_mem]
      rintro ⟨s, n⟩ hs
      obtain ⟨body, after, hbody, hrest, -⟩ := escaped_of_textBody hs
      exact h s body after hbody hrest
    simp [lexeme, hnone]
  | @number l after he h =>
    obtain ⟨c, tail, ht, hc⟩ := l.text_eq_cons
    have hinfinite : l.value.isFinite = false := by
      rw [← Bool.not_eq_true, l.isFinite_value_iff]
      exact not_lt.mpr h
    refine ⟨c, tail ++ after, by rw [ht]; rfl, isGap_of_literal hc, ?_⟩
    exact lexeme_of_tooLarge he hinfinite ht hc
  | point h =>
    refine ⟨_, _, rfl, by decide, ?_⟩
    have hnone : Double.read? ['.'] = none := by decide
    simp [lexeme, literalRun_point h, hnone]
  | other h =>
    exact ⟨_, _, rfl, by simpa [← isGap_iff] using h.1, lexeme_of_startsNothing h⟩

end Lexeme

/-- `SplitBefore after ps before`: the text `before` is the pieces `ps` one after the other, and
stays so with `after` behind it. -/
inductive SplitBefore (after : List Char) : List Piece → List Char → Prop
  | nil : SplitBefore after [] []
  | gap {c : Char} {ps : List Piece} {before : List Char} (hc : c ∈ gaps)
      (h : SplitBefore after ps before) : SplitBefore after (.gap c :: ps) (c :: before)
  | lexeme {t : Token} {w : List Char} {ps : List Piece} {before : List Char} (hw : Lexeme t w)
      (he : EndsBefore w (before ++ after)) (h : SplitBefore after ps before) :
      SplitBefore after (.lexeme t w :: ps) (w ++ before)

/-- The literal at the end of the pieces, if they end in one, does not go on with `after`. -/
def LiteralEnds (ps : List Piece) (after : List Char) : Prop :=
  ∀ qs t (l : Literal), ps = qs ++ [.lexeme t l.text] → l.Ends after

section Split
variable {ps qs : List Piece} {before after rest : List Char}

theorem SplitBefore.split (h : SplitBefore after ps before) : Split ps before := by
  induction h with
  | nil => exact .nil
  | gap hc _ ih => exact .gap hc ih
  | @lexeme t w ps before hw he _ ih =>
    refine .lexeme hw ?_ ih
    cases before with
    | nil => exact endsBefore_nil w
    | cons c before => exact he

theorem SplitBefore.literalEnds (h : SplitBefore after ps before) : LiteralEnds ps after := by
  induction h with
  | nil => simp [LiteralEnds]
  | @gap c ps before _ _ ih =>
    rintro (_ | ⟨q, qs⟩) t l hps
    · cases hps
    · exact ih qs t l (List.cons.inj hps).2
  | @lexeme t' w ps before _ he h ih =>
    rintro (_ | ⟨q, qs⟩) t l hps
    · obtain ⟨hpiece, rfl⟩ := List.cons.inj hps
      cases hpiece
      obtain rfl : before = [] := by
        cases h
        rfl
      exact he l rfl
    · exact ih qs t l (List.cons.inj hps).2

theorem Split.splitBefore (h : Split ps before) (he : LiteralEnds ps after) :
    SplitBefore after ps before := by
  induction h with
  | nil => exact .nil
  | @gap c ps before hc h ih =>
    exact .gap hc (ih fun qs t l hps => he (.gap c :: qs) t l (by rw [hps]; rfl))
  | @lexeme t w ps before hw hends h ih =>
    refine .lexeme hw ?_ (ih fun qs t' l hps => he (.lexeme t w :: qs) t' l (by rw [hps]; rfl))
    cases before with
    | nil =>
      rw [h.nil_eq] at he
      exact fun l hl => he [] t l (by rw [hl]; rfl)
    | cons c before => exact hends

theorem SplitBefore.scan_append (h : SplitBefore after ps before) (position : Nat) :
    scan position (before ++ after) =
      (scan (position + before.length) after).map (Piece.tokens ps ++ ·) := by
  induction h generalizing position with
  | nil => cases hr : scan position after <;> simp [hr, Except.map, Piece.tokens]
  | @gap c ps before hc _ ih =>
    have hlength : position + 1 + before.length = position + (c :: before).length := by
      rw [List.length_cons]
      omega
    rw [List.cons_append, scan, if_pos (isGap_iff.mpr hc), ih, hlength]
    rfl
  | @lexeme t w ps before hw he _ ih =>
    obtain ⟨c, tail, rfl, hg, hl⟩ := lexeme_of_lexeme hw he position
    have hlength : position + 1 + tail.length + before.length =
        position + (c :: tail ++ before).length := by
      rw [List.length_append, List.length_cons]
      omega
    rw [List.append_assoc, List.cons_append, scan, if_neg (by simp [hg]), hl]
    simp only [List.drop_left, ih, hlength]
    cases scan (position + (c :: tail ++ before).length) after <;> rfl

theorem exists_splitBefore {position : Nat} {s : List Char} {e : CompileError}
    (h : scan position s = .error e) :
    ∃ ps before after, s = before ++ after ∧ SplitBefore after ps before ∧
      Unreadable (position + before.length) after e := by
  fun_induction scan position s with
  | case1 => cases h
  | case2 position c rest hc ih =>
    obtain ⟨ps, before, after, rfl, hps, hbreak⟩ := ih h
    refine ⟨.gap c :: ps, c :: before, after, rfl, .gap (isGap_iff.mp hc) hps, ?_⟩
    rwa [List.length_cons, Nat.add_comm before.length, ← Nat.add_assoc]
  | case3 position c rest hc e' hl =>
    cases h
    exact ⟨[], [], c :: rest, rfl, .nil, unreadable_of_lexeme (by simpa using hc) hl⟩
  | case4 position c rest hc t n hl ih =>
    obtain ⟨ps, before, after, hrest, hps, hbreak⟩ := ih (map_eq_error h)
    have htaken := taken_of_lexeme hl
    have hends := htaken.ends
    have hsplit : rest.take n ++ (before ++ after) = rest := by
      rw [← hrest, List.take_append_drop]
    rw [hrest] at hends
    refine ⟨_, _, after, ?_, .lexeme htaken.lexeme hends hps, ?_⟩
    · rw [List.append_assoc, List.cons_append, hsplit]
    · have hn : (rest.take n).length = n := by
        obtain ⟨d, tail, hcons, -, hok⟩ :=
          lexeme_of_lexeme htaken.lexeme htaken.ends position
        obtain ⟨rfl, rfl⟩ := List.cons.inj hcons
        rw [List.take_append_drop, hl] at hok
        exact (Prod.mk.inj (Except.ok.inj hok)).2.symm
      have hlength : position + (c :: rest.take n ++ before).length =
          position + 1 + n + before.length := by
        rw [List.length_append, List.length_cons, hn]
        omega
      rwa [hlength]

theorem SplitBefore.length_le {position : Nat} {e : CompileError} {before' after' : List Char}
    (h : SplitBefore after ps before) (hbreak : Unreadable position after e)
    (h' : SplitBefore after' qs before') (hs : before ++ after = before' ++ after') :
    before'.length ≤ before.length := by
  induction h generalizing qs before' with
  | nil =>
    -- A gap or a lexeme would start where none can.
    obtain ⟨c, rest, rfl, hg, hl⟩ := hbreak.lexeme_eq
    cases h' with
    | nil => exact le_rfl
    | gap hc _ =>
      obtain ⟨rfl, -⟩ := List.cons.inj hs
      rw [isGap_iff.mpr hc] at hg
      cases hg
    | lexeme hw he _ =>
      obtain ⟨d, tail, rfl, -, hok⟩ := lexeme_of_lexeme hw he position
      rw [List.append_assoc, List.cons_append] at hs
      obtain ⟨rfl, rfl⟩ := List.cons.inj hs
      rw [hok] at hl
      cases hl
  | @gap c ps before hc _ ih =>
    cases h' with
    | nil => exact Nat.zero_le _
    | gap _ h' =>
      have hle := ih h' (List.cons.inj hs).2
      exact Nat.succ_le_succ hle
    | lexeme hw he _ =>
      obtain ⟨d, tail, rfl, hg, -⟩ := lexeme_of_lexeme hw he position
      obtain ⟨rfl, -⟩ := List.cons.inj hs
      rw [isGap_iff.mpr hc] at hg
      cases hg
  | @lexeme t w ps before hw he _ ih =>
    obtain ⟨c, tail, rfl, hg, hl⟩ := lexeme_of_lexeme hw he position
    cases h' with
    | nil => exact Nat.zero_le _
    | gap hc _ =>
      obtain ⟨rfl, -⟩ := List.cons.inj hs
      rw [isGap_iff.mpr hc] at hg
      cases hg
    | @lexeme t' w' qs more hw' he' h' =>
      obtain ⟨d, tail', rfl, -, hl'⟩ := lexeme_of_lexeme hw' he' position
      rw [List.append_assoc, List.append_assoc, List.cons_append, List.cons_append] at hs
      obtain ⟨rfl, htail⟩ := List.cons.inj hs
      rw [htail] at hl
      obtain ⟨-, hlength⟩ := Prod.mk.inj (Except.ok.inj (hl.symm.trans hl'))
      obtain ⟨rfl, hmore⟩ := List.append_inj htail hlength
      have hle := ih h' hmore
      rw [List.length_append, List.length_append]
      omega

end Split

/-- The text before `p` has tokens, and a literal at its end does not go on at `p`. -/
structure ScanPosition (s : List Char) (p : Nat) : Prop where
  reads : ∃ ts, tokens (String.ofList (s.take p)) = .ok ts
  ends : ∀ ps, Split ps (s.take p) → LiteralEnds ps (s.drop p)

theorem ScanPosition.exists_splitBefore {s : List Char} {p : Nat} (h : ScanPosition s p) :
    ∃ ps, SplitBefore (s.drop p) ps (s.take p) := by
  obtain ⟨ts, hts⟩ := h.reads
  rw [tokens, String.toList_ofList] at hts
  obtain ⟨ps, hps, -⟩ := exists_split hts
  exact ⟨ps, hps.splitBefore (h.ends ps hps)⟩

theorem SplitBefore.scanPosition {ps : List Piece} {before after : List Char}
    (h : SplitBefore after ps before) : ScanPosition (before ++ after) before.length := by
  have hsplit := h.split
  refine ⟨⟨Piece.tokens ps, ?_⟩, ?_⟩
  · rw [List.take_left]
    exact tokens_ofList hsplit.lexed
  · intro qs hqs
    rw [List.take_left] at hqs
    rw [List.drop_left, hqs.unique hsplit]
    exact h.literalEnds

theorem Unreadable.scan_eq {position : Nat} {s : List Char} {e : CompileError}
    (h : Unreadable position s e) : scan position s = .error e := by
  obtain ⟨c, rest, rfl, hg, hl⟩ := h.lexeme_eq
  rw [scan, if_neg (by simp [hg]), hl]

theorem Unreadable.lt_length {p : Nat} {s : List Char} {e : CompileError}
    (h : Unreadable p (s.drop p) e) : p < s.length := by
  obtain ⟨c, rest, hdrop, -⟩ := h.lexeme_eq
  by_contra hle
  rw [List.drop_eq_nil_of_le (by omega)] at hdrop
  cases hdrop

def scanFaults : List FaultKind :=
  [.unmatchedBrace, .emptyField, .unterminatedText, .numberOutOfRange, .unexpectedChar]

theorem Unreadable.kind?_mem {position : Nat} {s : List Char} {e : CompileError}
    (h : Unreadable position s e) : ∃ k ∈ scanFaults, e.kind? = some k := by
  cases h <;> exact ⟨_, by decide, rfl⟩

end FormulaTable.Formula
