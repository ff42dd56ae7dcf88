import FormulaTable.Proofs.Journal.JsonNumber
import Mathlib.Data.List.Forall2

/-!
# Values as JSON

What stands for a value is read as that value and holds no control character. It is read without
regard to what follows, as long as that ends it, so that the parts of a list or of an object are
read one by one.
-/

namespace FormulaTable.Journal.Json
open Decimal (intText)

variable {rest : List Char}

theorem skip_cons {c : Char} (h : isSpace c = false) : skip (c :: rest) = c :: rest :=
  List.dropWhile_cons_of_neg (by simp [h])

/-- The characters are read as the value wherever one may stand. A list around them does not take
their first one for its end. -/
structure Encodes (cs : List Char) (v : Value) : Prop where
  read : ∀ steps rest, cs.length < steps → EndsValue rest →
    value? steps (cs ++ rest) = some (v, rest)
  start : ∀ c ∈ cs.head?, isSpace c = false ∧ c ≠ ']'
  visible : ∀ c ∈ cs, 0x20 ≤ c.toNat

theorem Encodes.exists_cons {cs : List Char} {v : Value} (h : Encodes cs v) :
    ∃ c tail, cs = c :: tail ∧ isSpace c = false ∧ c ≠ ']' := by
  cases cs with
  | nil =>
    have hread := h.read 1 [] Nat.one_pos (by simp [EndsValue])
    exact absurd hread (by simp [value?, skip, atom?, number?, minus, whole?, run?])
  | cons c tail => exact ⟨c, tail, rfl, h.start c rfl⟩

def marks : List Char := [' ', '\t', '\n', '\r', '"', '[', ']', '\x7b']

theorem Encodes.of_atom {c : Char} {tail : List Char} {v : Value} (hc : c ∉ marks)
    (hread : ∀ rest, EndsValue rest → atom? (c :: tail ++ rest) = some (v, rest))
    (hvisible : ∀ d ∈ c :: tail, 0x20 ≤ d.toNat) : Encodes (c :: tail) v := by
  simp only [marks, List.mem_cons, List.not_mem_nil, or_false, not_or] at hc
  have hspace : isSpace c = false := by simp [isSpace, hc]
  refine ⟨fun steps rest hsteps hrest => ?_, ?_, hvisible⟩
  · obtain ⟨steps, rfl⟩ := Nat.exists_eq_succ_of_ne_zero (Nat.ne_zero_of_lt hsteps)
    rw [← hread rest hrest, List.cons_append, value?, skip_cons hspace]
    simp [hc]
  · rintro d ⟨⟩
    exact ⟨hspace, by simp [hc]⟩

theorem encodes_null : Encodes "null".toList .null := by
  have hword : "null".toList = ['n', 'u', 'l', 'l'] := rfl
  rw [hword]
  exact .of_atom (by decide) (fun _ _ => rfl) (by simp)

theorem encodes_flag (b : Bool) :
    Encodes (if b then "true".toList else "false".toList) (.flag b) := by
  have htrue : "true".toList = ['t', 'r', 'u', 'e'] := rfl
  have hfalse : "false".toList = ['f', 'a', 'l', 's', 'e'] := rfl
  rw [htrue, hfalse]
  cases b with
  | true => exact .of_atom (by decide) (fun _ _ => rfl) (by simp)
  | false => exact .of_atom (by decide) (fun _ _ => rfl) (by simp)

theorem visible_of_isNumeric {c : Char} (h : Decimal.IsNumeric c) : 0x20 ≤ c.toNat := by
  have hcontrol : ∀ n < 0x20, ¬Decimal.IsNumeric (Char.ofNat n) := by decide
  by_contra hlow
  exact hcontrol c.toNat (by omega) (by rwa [Char.ofNat_toNat])

theorem head_of_number? {s : List Char} {r : Value × List Char} (h : number? s = some r) :
    ∃ c tail, s = c :: tail ∧ (c.isDigit = true ∨ c = '-') := by
  rcases s with _ | ⟨c, tail⟩
  · cases h
  · refine ⟨c, tail, rfl, ?_⟩
    by_contra hc
    rw [not_or] at hc
    have hminus : minus (c :: tail) = (false, c :: tail) :=
      minus.eq_2 _ fun tail heq => hc.2 (List.cons.inj heq).1
    have hzero : c ≠ '0' := fun heq => hc.1 (by rw [heq]; rfl)
    have hwhole : whole? (c :: tail) = none := by
      rw [whole?.eq_2 _ fun tail heq => hzero (List.cons.inj heq).1]
      simp [run?, hc.1]
    simp [number?, hminus, hwhole] at h

theorem Encodes.of_number {cs : List Char} {v : Value}
    (hread : ∀ rest, EndsValue rest → number? (cs ++ rest) = some (v, rest))
    (hmem : ∀ c ∈ cs, Decimal.IsNumeric c) : Encodes cs v := by
  have hends : EndsValue [] := by simp [EndsValue]
  have hself := hread [] hends
  rw [List.append_nil] at hself
  obtain ⟨c, tail, rfl, hc⟩ := head_of_number? hself
  have hother : ∀ d ∈ 'n' :: 't' :: 'f' :: marks, c ≠ d := by
    rintro d hd rfl
    have hneither : ∀ d ∈ 'n' :: 't' :: 'f' :: marks, d.isDigit = false ∧ d ≠ '-' := by
      simp [marks]
    simp [hneither c hd] at hc
  refine .of_atom (fun hmark => hother c (by simp [hmark]) rfl) (fun rest hrest => ?_)
    fun d hd => visible_of_isNumeric (hmem d hd)
  rw [← hread rest hrest]
  exact atom?.eq_4 _ (fun _ heq => hother 'n' (by simp) (List.cons.inj heq).1)
    (fun _ heq => hother 't' (by simp) (List.cons.inj heq).1)
    (fun _ heq => hother 'f' (by simp) (List.cons.inj heq).1)

theorem encodes_intText (n : Int) : Encodes (intText n) (.whole n) := by
  obtain ⟨r, hr, -⟩ := Option.map_eq_some_iff.mp (Double.denoted?_intText n)
  exact .of_number (fun rest h => number?_intText n h) (Decimal.isNumeric_of_read? hr)

theorem encodes_ofDouble {x : Float} (hx : x.isFinite = true) :
    Encodes (ofDouble x) (.number x) := by
  have hread := Double.read?_signed numberLayout hx
  obtain ⟨r, hr, -⟩ := Option.map_eq_some_iff.mp hread
  refine .of_number (fun rest h => number?_ofDouble hx h) ?_
  rw [ofDouble, if_pos hx]
  exact Decimal.isNumeric_of_read? hr

theorem Quotes.encodes {cs : List Char} {s : String} (h : Quotes cs s) : Encodes cs (.text s) := by
  obtain ⟨⟨body, rfl, hread⟩, hvisible⟩ := h
  refine ⟨fun steps rest hsteps _ => ?_, ?_, hvisible⟩
  · obtain ⟨steps, rfl⟩ := Nat.exists_eq_succ_of_ne_zero (Nat.ne_zero_of_lt hsteps)
    rw [List.cons_append, value?, skip_cons (by decide)]
    simp [hread]
  · rintro c ⟨⟩
    decide

def EncodesMember (part : List Char) (m : String × Value) : Prop :=
  ∃ ks cs, part = ks ++ ':' :: cs ∧ Quotes ks m.1 ∧ Encodes cs m.2

theorem EncodesMember.visible {part : List Char} {m : String × Value} (h : EncodesMember part m) :
    ∀ c ∈ part, 0x20 ≤ c.toNat := by
  obtain ⟨ks, cs, rfl, hks, hcs⟩ := h
  intro c hc
  rcases List.mem_append.mp hc with hc | hc
  · exact hks.visible c hc
  · rcases List.mem_cons.mp hc with rfl | hc
    · decide
    · exact hcs.visible c hc

theorem joined_cons {part : List Char} {parts : List (List Char)} (h : parts ≠ []) :
    joined (part :: parts) = part ++ ',' :: joined parts := by
  obtain ⟨next, tail, rfl⟩ := List.exists_cons_of_ne_nil h
  rfl

theorem visible_joined {parts : List (List Char)}
    (h : ∀ part ∈ parts, ∀ c ∈ part, 0x20 ≤ c.toNat) : ∀ c ∈ joined parts, 0x20 ≤ c.toNat := by
  fun_induction joined parts with
  | case1 => simp
  | case2 part => exact h part List.mem_cons_self
  | case3 part tail _ ih =>
    obtain ⟨hpart, htail⟩ := List.forall_mem_cons.mp h
    intro c hc
    rcases List.mem_append.mp hc with hc | hc
    · exact hpart c hc
    · rcases List.mem_cons.mp hc with rfl | hc
      · decide
      · exact ih htail c hc

theorem visible_enclosed {parts : List (List Char)} {first last : Char}
    (hfirst : 0x20 ≤ first.toNat) (hlast : 0x20 ≤ last.toNat)
    (h : ∀ part ∈ parts, ∀ c ∈ part, 0x20 ≤ c.toNat) :
    ∀ c ∈ first :: joined parts ++ [last], 0x20 ≤ c.toNat := by
  intro c hc
  simp only [List.cons_append, List.mem_cons, List.mem_append, List.not_mem_nil, or_false] at hc
  rcases hc with rfl | hc | rfl
  · exact hfirst
  · exact visible_joined h c hc
  · exact hlast

theorem items?_joined {parts : List (List Char)} {vs : List Value}
    (h : List.Forall₂ Encodes parts vs) (hne : parts ≠ []) {steps : Nat}
    (hsteps : (joined parts).length + 1 < steps) :
    items? steps (joined parts ++ ']' :: rest) = some (vs, rest) := by
  induction h generalizing steps with
  | nil => exact absurd rfl hne
  | @cons part v parts vs hpart hparts ih =>
    obtain ⟨steps, rfl⟩ := Nat.exists_eq_succ_of_ne_zero (Nat.ne_zero_of_lt hsteps)
    cases hparts with
    | nil =>
      have hread := hpart.read steps (']' :: rest) (by simpa [joined] using hsteps)
        (by simp [EndsValue])
      have hend : skip (']' :: rest) = ']' :: rest := skip_cons (by decide)
      simp [items?, joined, hread, hend]
    | @cons next w parts vs hnext hparts =>
      rw [joined_cons (List.cons_ne_nil _ _), List.length_append, List.length_cons] at hsteps
      have hread := hpart.read steps (',' :: (joined (next :: parts) ++ ']' :: rest)) (by omega)
        (by simp [EndsValue])
      have htail : items? steps (joined (next :: parts) ++ ']' :: rest) = some (w :: vs, rest) :=
        ih (List.cons_ne_nil _ _) (by omega)
      simp [items?, joined_cons, hread, skip_cons (c := ',') (by decide), htail]

theorem members?_joined {parts : List (List Char)} {ms : List (String × Value)}
    (h : List.Forall₂ EncodesMember parts ms) (hne : parts ≠ []) {steps : Nat}
    (hsteps : (joined parts).length < steps) :
    members? steps (joined parts ++ '\x7d' :: rest) = some (ms, rest) := by
  induction h generalizing steps with
  | nil => exact absurd rfl hne
  | @cons part m parts ms hpart hparts ih =>
    obtain ⟨steps, rfl⟩ := Nat.exists_eq_succ_of_ne_zero (Nat.ne_zero_of_lt hsteps)
    obtain ⟨ks, cs, rfl, ⟨⟨body, rfl, hkey⟩, -⟩, hcs⟩ := hpart
    have hshorter : cs.length < ('"' :: body ++ ':' :: cs).length := by
      simp only [List.length_append, List.length_cons]
      omega
    cases hparts with
    | nil =>
      rw [joined] at hsteps
      have hread := hcs.read steps ('\x7d' :: rest) (by omega) (by simp [EndsValue])
      simp [members?, joined, skip_cons (c := '"') (by decide), hkey,
        skip_cons (c := ':') (by decide), hread, skip_cons (c := '\x7d') (by decide)]
    | @cons next n parts ms hnext hparts =>
      rw [joined_cons (List.cons_ne_nil _ _), List.length_append, List.length_cons] at hsteps
      have hread := hcs.read steps (',' :: (joined (next :: parts) ++ '\x7d' :: rest)) (by omega)
        (by simp [EndsValue])
      have htail : members? steps (joined (next :: parts) ++ '\x7d' :: rest) =
          some (n :: ms, rest) := ih (List.cons_ne_nil _ _) (by omega)
      simp [members?, joined_cons, skip_cons (c := '"') (by decide), hkey,
        skip_cons (c := ':') (by decide), hread, skip_cons (c := ',') (by decide), htail]

theorem head?_joined {part : List Char} {parts : List (List Char)} (h : part ≠ []) :
    (joined (part :: parts)).head? = part.head? := by
  cases parts with
  | nil => rfl
  | cons next parts => exact List.head?_append_of_ne_nil part h

theorem Encodes.list {parts : List (List Char)} {vs : List Value}
    (h : List.Forall₂ Encodes parts vs) : Encodes ('[' :: joined parts ++ [']']) (.list vs) := by
  refine ⟨fun steps rest hsteps _ => ?_, ?_, ?_⟩
  · obtain ⟨steps, rfl⟩ := Nat.exists_eq_succ_of_ne_zero (Nat.ne_zero_of_lt hsteps)
    simp only [List.cons_append, List.append_assoc, List.nil_append]
    cases h with
    | nil =>
      simp [value?, joined, skip_cons (c := '[') (by decide), skip_cons (c := ']') (by decide)]
    | @cons part v parts vs hpart hparts =>
      have hshorter : (joined (part :: parts)).length + 1 < steps := by
        simp only [List.length_append, List.length_cons, List.length_nil] at hsteps
        omega
      have hitems : items? steps (joined (part :: parts) ++ ']' :: rest) = some (v :: vs, rest) :=
        items?_joined (.cons hpart hparts) (List.cons_ne_nil _ _) hshorter
      obtain ⟨c, tail, rfl, hspace, hend⟩ := hpart.exists_cons
      obtain ⟨tail', htail⟩ : ∃ tail', joined ((c :: tail) :: parts) = c :: tail' :=
        List.head?_eq_some_iff.mp (head?_joined (List.cons_ne_nil c tail))
      rw [htail, List.cons_append] at hitems ⊢
      simp [value?, skip_cons (c := '[') (by decide), skip_cons hspace, hend, hitems]
  · rintro c ⟨⟩
    decide
  · exact visible_enclosed (by decide) (by decide)
      ((List.forall₂_and_left _ _).mp (h.imp fun _ _ hpart => ⟨hpart.visible, hpart⟩)).1

theorem encodes_object {parts : List (List Char)} {ms : List (String × Value)}
    (h : List.Forall₂ EncodesMember parts ms) : Encodes (object parts) (.object ms) := by
  refine ⟨fun steps rest hsteps _ => ?_, ?_, ?_⟩
  · obtain ⟨steps, rfl⟩ := Nat.exists_eq_succ_of_ne_zero (Nat.ne_zero_of_lt hsteps)
    simp only [object, List.cons_append, List.append_assoc, List.nil_append] at hsteps ⊢
    cases h with
    | nil =>
      simp [value?, joined, skip_cons (c := '\x7b') (by decide),
        skip_cons (c := '\x7d') (by decide)]
    | @cons part m parts ms hpart hparts =>
      have hshorter : (joined (part :: parts)).length < steps := by
        simp only [List.length_append, List.length_cons, List.length_nil] at hsteps
        omega
      have hmembers : members? steps (joined (part :: parts) ++ '\x7d' :: rest) =
          some (m :: ms, rest) :=
        members?_joined (.cons hpart hparts) (List.cons_ne_nil _ _) hshorter
      obtain ⟨ks, cs, rfl, ⟨⟨body, rfl, -⟩, -⟩, -⟩ := hpart
      obtain ⟨tail', htail⟩ : ∃ tail',
          joined (('"' :: body ++ ':' :: cs) :: parts) = '"' :: tail' :=
        List.head?_eq_some_iff.mp (head?_joined (List.cons_ne_nil _ _))
      rw [htail, List.cons_append] at hmembers ⊢
      simp [value?, skip_cons (c := '\x7b') (by decide), skip_cons (c := '"') (by decide),
        hmembers]
  · rintro c ⟨⟩
    decide
  · exact visible_enclosed (by decide) (by decide)
      ((List.forall₂_and_left _ _).mp (h.imp fun _ _ hpart => ⟨hpart.visible, hpart⟩)).1

theorem read?_ofList {cs : List Char} {v : Value} (h : Encodes cs v) :
    read? (String.ofList cs) = some v := by
  have hread := h.read (cs.length + 1) [] (Nat.lt_succ_self _) (by simp [EndsValue])
  rw [List.append_nil] at hread
  rw [read?, String.toList_ofList, hread]
  rfl

end FormulaTable.Journal.Json
