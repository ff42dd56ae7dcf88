import FormulaTable.Text.Blank
import Mathlib.Data.List.DropRight

/-! Trimming a text that is put together from parts. -/

namespace FormulaTable.Text

variable {p : Char → Bool}

theorem trimRightBy_cons_of_not {c : Char} (h : p c = false) (s : List Char) :
    trimRightBy p (c :: s) = c :: trimRightBy p s := by
  rw [trimRightBy]
  split
  · next hs => simp [h, hs]
  · rfl

theorem trimRightBy_cons_of_ne_nil (c : Char) {s : List Char} (h : trimRightBy p s ≠ []) :
    trimRightBy p (c :: s) = c :: trimRightBy p s := by
  rw [trimRightBy]
  split
  · next hs => exact absurd hs h
  · rfl

theorem trimRightBy_eq_nil {s : List Char} (h : ∀ c ∈ s, p c = true) : trimRightBy p s = [] := by
  induction s with
  | nil => rfl
  | cons c s ih =>
    have hc := h c (by simp)
    simp [trimRightBy, ih fun d hd => h d (List.mem_cons_of_mem c hd), hc]

theorem trimRightBy_append_of_all (s : List Char) {after : List Char}
    (h : ∀ c ∈ after, p c = true) : trimRightBy p (s ++ after) = trimRightBy p s := by
  induction s with
  | nil => simp [trimRightBy_eq_nil h, trimRightBy]
  | cons c s ih => simp [trimRightBy, ih]

theorem trimRightBy_append_of_getLast {w : List Char} (h : ∀ c ∈ w.getLast?, p c = false)
    (s : List Char) : trimRightBy p (w ++ s) = w ++ trimRightBy p s := by
  induction w with
  | nil => rfl
  | cons c w ih =>
    cases w with
    | nil => exact trimRightBy_cons_of_not (h c rfl) s
    | cons d w =>
      have ih' := ih (by simpa [List.getLast?_cons_cons] using h)
      have hne : trimRightBy p (d :: w ++ s) ≠ [] := by
        rw [ih']
        simp
      rw [List.cons_append, trimRightBy_cons_of_ne_nil c hne, ih']
      rfl

theorem dropWhile_trimRightBy (s : List Char) :
    (trimRightBy p s).dropWhile p = trimRightBy p (s.dropWhile p) := by
  induction s with
  | nil => rfl
  | cons c s ih =>
    by_cases hc : p c = true
    · by_cases hs : trimRightBy p s = []
      · rw [hs] at ih
        simp [trimRightBy, hs, hc, ← ih]
      · simp [trimRightBy_cons_of_ne_nil c hs, hc, ih]
    · simp only [Bool.not_eq_true] at hc
      simp [trimRightBy_cons_of_not hc, hc]

theorem trimBy_trimRightBy (s : List Char) : trimBy p (trimRightBy p s) = trimBy p s := by
  rw [trimBy, dropWhile_trimRightBy, trimRightBy_trimRightBy, trimBy]

theorem trimBy_trimBy (s : List Char) : trimBy p (trimBy p s) = trimBy p s := by
  have hright : trimBy p (trimBy p s) = trimBy p (s.dropWhile p) := trimBy_trimRightBy _
  rw [hright, trimBy, List.dropWhile_idempotent, trimBy]

theorem trimBy_append_of_all {before : List Char} (h : ∀ c ∈ before, p c = true)
    (s : List Char) {after : List Char} (ha : ∀ c ∈ after, p c = true) :
    trimBy p (before ++ s ++ after) = trimBy p s := by
  have hb : (before ++ s).dropWhile p = s.dropWhile p := List.dropWhile_append_of_pos h
  rw [← trimBy_trimRightBy, trimRightBy_append_of_all _ ha, trimBy_trimRightBy, trimBy, hb, trimBy]

theorem mem_head?_of_trimRightBy {s : List Char} {c : Char} (h : c ∈ (trimRightBy p s).head?) :
    c ∈ s.head? := by
  cases s with
  | nil => exact h
  | cons d s =>
    rw [trimRightBy] at h
    split at h
    · split at h
      · cases h
      · exact h
    · exact h

theorem mem_of_mem_trimRightBy {s : List Char} {c : Char} (h : c ∈ trimRightBy p s) : c ∈ s := by
  induction s with
  | nil => exact h
  | cons d s ih =>
    rw [trimRightBy] at h
    split at h
    · split at h
      · cases h
      · exact List.mem_cons.mpr (Or.inl (List.mem_singleton.mp h))
    · rcases List.mem_cons.mp h with rfl | h
      · simp
      · exact List.mem_cons_of_mem d (ih h)

theorem mem_of_mem_trimBy {s : List Char} {c : Char} (h : c ∈ trimBy p s) : c ∈ s :=
  (List.dropWhile_sublist p).mem (mem_of_mem_trimRightBy h)

theorem mem_trimRightBy_or {s : List Char} {c : Char} (h : c ∈ s) :
    c ∈ trimRightBy p s ∨ p c = true := by
  induction s with
  | nil => cases h
  | cons d s ih =>
    by_cases hd : c = d
    · subst hd
      by_cases hc : p c = true
      · exact Or.inr hc
      · exact Or.inl (by simp [trimRightBy_cons_of_not (Bool.not_eq_true _ ▸ hc)])
    · have hs : c ∈ s := (List.mem_cons.mp h).resolve_left hd
      rcases ih hs with hk | hp
      · left
        rw [trimRightBy_cons_of_ne_nil d (List.ne_nil_of_mem hk)]
        exact List.mem_cons_of_mem d hk
      · exact Or.inr hp

theorem mem_trimBy_or {s : List Char} {c : Char} (h : c ∈ s) : c ∈ trimBy p s ∨ p c = true := by
  rw [← List.takeWhile_append_dropWhile (p := p) (l := s)] at h
  rcases List.mem_append.mp h with h | h
  · exact Or.inr (List.all_eq_true.mp List.all_takeWhile c h)
  · exact mem_trimRightBy_or h

theorem trimBy_eq_nil_iff {s : List Char} : trimBy p s = [] ↔ ∀ c ∈ s, p c = true := by
  constructor
  · intro h c hc
    refine (mem_trimBy_or hc).resolve_left ?_
    rw [h]
    exact List.not_mem_nil
  · intro h
    exact trimRightBy_eq_nil fun c hc => h c ((List.dropWhile_sublist p).mem hc)

theorem trimBy_of_ends {s : List Char} (hfirst : ∀ c ∈ s.head?, p c = false)
    (hlast : ∀ c ∈ s.getLast?, p c = false) : trimBy p s = s := by
  have hdrop : s.dropWhile p = s := by
    cases s with
    | nil => rfl
    | cons c s => exact List.dropWhile_cons_of_neg (by simp [hfirst c rfl])
  have hright := trimRightBy_append_of_getLast hlast []
  rw [List.append_nil, trimRightBy, List.append_nil] at hright
  rw [trimBy, hdrop, hright]

theorem trimBy_append_of_ends {w : List Char} (hne : w ≠ []) (hfirst : ∀ c ∈ w.head?, p c = false)
    (hlast : ∀ c ∈ w.getLast?, p c = false) (s : List Char) :
    trimBy p (w ++ s) = w ++ trimRightBy p s := by
  obtain ⟨c, w, rfl⟩ := List.exists_cons_of_ne_nil hne
  have hdrop : (c :: w ++ s).dropWhile p = c :: w ++ s :=
    List.dropWhile_cons_of_neg (by simp [hfirst c rfl])
  rw [trimBy, hdrop, trimRightBy_append_of_getLast hlast]

theorem trimBy_of_forall_not {s : List Char} (h : ∀ c ∈ s, p c = false) : trimBy p s = s :=
  trimBy_of_ends (fun c hc => h c (List.mem_of_mem_head? hc))
    fun c hc => h c (List.mem_of_getLast? hc)

theorem isBlank_of_isDigit {c : Char} (h : c.isDigit = true) : isBlank c = false := by
  simp only [Char.isDigit, Bool.and_eq_true, decide_eq_true_eq] at h
  have h₁ : 48 ≤ c.toNat := h.1
  have h₂ : c.toNat ≤ 57 := h.2
  simp only [isBlank, Bool.or_eq_false_iff, Bool.and_eq_false_iff, decide_eq_false_iff_not,
    beq_eq_false_iff_ne]
  omega

end FormulaTable.Text
