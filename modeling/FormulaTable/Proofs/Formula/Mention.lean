import FormulaTable.Proofs.Formula.Grammar
import FormulaTable.Proofs.Formula.Reading

/-!
# A field named inside a formula

A field name in braces that stands where one token has ended and the next has not begun is a token,
whatever comes after it, so a formula with such a text in it reads the field. Quotes are made
straight before the text is read, in names as everywhere else.
-/

namespace FormulaTable.Formula

theorem EndsBefore.append {w s rest : List Char} (h : EndsBefore w s) (hs : Stops rest) :
    EndsBefore w (s ++ rest) := by
  cases s with
  | nil => exact hs.endsBefore w
  | cons c s => exact h

theorem scan_append {ts : List Token} {s rest : List Char} (h : Lexed ts s) (hs : Stops rest)
    (position : Nat) :
    scan position (s ++ rest) = (scan (position + s.length) rest).map (ts ++ ·) := by
  induction h generalizing position with
  | nil => cases hr : scan position rest <;> simp [hr, Except.map]
  | @gap c ts s hc _ ih =>
    have hlength : position + 1 + s.length = position + (c :: s).length := by
      rw [List.length_cons]
      omega
    rw [List.cons_append, scan, if_pos (isGap_iff.mpr hc), ih, hlength]
  | @lexeme t w ts s hw he _ ih =>
    obtain ⟨c, tail, rfl, hg, hl⟩ := lexeme_of_lexeme hw (he.append hs) position
    have hlength : position + 1 + tail.length + s.length =
        position + (c :: tail ++ s).length := by
      rw [List.length_append, List.length_cons]
      omega
    rw [List.append_assoc, List.cons_append, scan, if_neg (by simp [hg]), hl]
    simp only [List.drop_left, ih, hlength]
    cases scan (position + (c :: tail ++ s).length) rest <;> rfl

theorem mem_of_scan_mention {ts : List Token} {s name after : List Char} {out : List Token}
    {position : Nat} (h : Lexed ts s) (hb : '\x7d' ∉ name) (hn : Text.trimList name ≠ [])
    (hout : scan position (s ++ '\x7b' :: (name ++ '\x7d' :: after)) = .ok out) :
    .field (String.ofList (Text.trimList name)) ∈ out := by
  rw [scan_append h (stops_cons (by decide) (by decide) _), scan,
    if_neg (by decide), lexeme_field hb hn] at hout
  obtain ⟨found, hfound, rfl⟩ := map_eq_ok hout
  obtain ⟨more, -, rfl⟩ := map_eq_ok hfound
  simp

theorem straighten_eq_iff {c d : Char} (hd : d ≠ '"') (h₁ : d ≠ '“') (h₂ : d ≠ '”') :
    straighten c = d ↔ c = d := by
  unfold straighten
  split
  · next hc =>
    constructor
    · exact fun h => absurd h.symm hd
    · rintro rfl
      exact absurd hc (not_or.mpr ⟨h₁, h₂⟩)
  · exact Iff.rfl

theorem isBlank_straighten (c : Char) : Text.isBlank (straighten c) = Text.isBlank c := by
  by_cases hc : c = '“' ∨ c = '”'
  · rcases hc with rfl | rfl <;> decide
  · rw [straighten, if_neg hc]

theorem dropWhile_map_straighten (s : List Char) :
    (s.map straighten).dropWhile Text.isBlank = (s.dropWhile Text.isBlank).map straighten := by
  have hblank : Text.isBlank ∘ straighten = Text.isBlank := funext isBlank_straighten
  rw [List.dropWhile_map, hblank]

theorem trimList_mention (before name after : List Char) :
    Text.trimList (before ++ '\x7b' :: (name ++ '\x7d' :: after)) =
      before.dropWhile Text.isBlank ++
        '\x7b' :: (name ++ '\x7d' :: Text.trimRightBy Text.isBlank after) := by
  have hdrop : (before ++ '\x7b' :: (name ++ '\x7d' :: after)).dropWhile Text.isBlank =
      before.dropWhile Text.isBlank ++ '\x7b' :: (name ++ ['\x7d']) ++ after := by
    rw [List.dropWhile_append]
    split
    · next hnil =>
      rw [List.isEmpty_iff.mp hnil, List.dropWhile_cons_of_neg (by decide)]
      simp
    · simp
  have hlast : ∀ c ∈ (before.dropWhile Text.isBlank ++ '\x7b' :: (name ++ ['\x7d'])).getLast?,
      Text.isBlank c = false := by
    intro c hc
    simp [List.getLast?_cons] at hc
    subst hc
    decide
  rw [Text.trimList, Text.trimBy, hdrop, Text.trimRightBy_append_of_getLast hlast]
  simp

theorem normalize_ofList {s : List Char} (hs : ∀ c ∈ (Text.trimList s).head?, c ≠ '=') :
    normalize (String.ofList s) = String.ofList ((Text.trimList s).map straighten) := by
  have htyped : Typed s ([] ++ s ++ []) := .bare (List.forall_mem_nil _) (List.forall_mem_nil _)
  rw [List.nil_append, List.append_nil] at htyped
  exact normalize_of_typed htyped hs

theorem normalize_trim (raw : String) : normalize (Text.trim raw) = normalize raw := by
  have htrim : Text.trimList (Text.trimList raw.toList) = Text.trimList raw.toList :=
    Text.trimBy_trimBy _
  rw [normalize, Text.trim, String.toList_ofList, htrim, normalize]

theorem compile_trim {raw : String} {f : Compiled} (h : compile raw = .ok f) :
    compile (Text.trim raw) = .ok { f with raw := Text.trim raw } := by
  unfold compile at h ⊢
  rw [normalize_trim]
  dsimp only at h ⊢
  split at h
  · cases h
  · next hne =>
    obtain ⟨ts, hts, h⟩ := bind_eq_ok h
    obtain ⟨code, hcode, h⟩ := bind_eq_ok h
    cases h
    rw [if_neg hne, hts]
    simp only [bind, Except.bind, hcode]

theorem Lexed.dropWhile_straighten {ts : List Token} {s : List Char}
    (h : Lexed ts (s.map straighten)) :
    Lexed ts ((s.dropWhile Text.isBlank).map straighten) := by
  rw [← dropWhile_map_straighten]
  exact h.dropWhile

theorem head_mention_ne {ts : List Token} {before : List Char}
    (h : Lexed ts (before.map straighten)) (name after : List Char) :
    ∀ c ∈ (Text.trimList (before ++ '\x7b' :: (name ++ '\x7d' :: after))).head?, c ≠ '=' := by
  have hread := h.dropWhile_straighten
  rw [trimList_mention]
  intro c hc
  cases hdrop : before.dropWhile Text.isBlank with
  | nil =>
    rw [hdrop] at hc
    cases hc
    decide
  | cons d rest =>
    rw [hdrop] at hc hread
    obtain rfl : d = c := Option.some.inj hc
    have hne : straighten d ≠ '=' := hread.head_ne _ rfl
    exact fun he => hne ((straighten_eq_iff (by decide) (by decide) (by decide)).mpr he)

theorem mem_dependencies_of_mention {ts : List Token} {before name after : List Char}
    {f : Compiled} (hb : Lexed ts (before.map straighten)) (hbrace : '\x7d' ∉ name)
    (hn : Text.trimList (name.map straighten) ≠ [])
    (h : compile (String.ofList (before ++ '\x7b' :: (name ++ '\x7d' :: after))) = .ok f) :
    String.ofList (Text.trimList (name.map straighten)) ∈ f.dependencies := by
  obtain ⟨out, hout, -, hdep, -⟩ := compile_eq_ok h
  rw [normalize_ofList (head_mention_ne hb name after), trimList_mention, tokens,
    String.toList_ofList] at hout
  have hbrace' : '\x7d' ∉ name.map straighten := by
    intro hmem
    obtain ⟨c, hc, he⟩ := List.mem_map.mp hmem
    rw [straighten_eq_iff (by decide) (by decide) (by decide)] at he
    exact hbrace (he ▸ hc)
  have hscan : scan 0 ((before.dropWhile Text.isBlank).map straighten ++
      '\x7b' :: (name.map straighten ++
        '\x7d' :: (Text.trimRightBy Text.isBlank after).map straighten)) = .ok out := by
    simpa [straighten] using hout
  have hmem := mem_of_scan_mention hb.dropWhile_straighten hbrace' hn hscan
  rw [hdep, Token.fields, List.mem_eraseDups, List.mem_filterMap]
  exact ⟨_, hmem, rfl⟩

end FormulaTable.Formula
