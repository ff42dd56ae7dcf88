import FormulaTable.Proofs.Format.Count
import FormulaTable.Proofs.Table.Consistency
import FormulaTable.Proofs.Table.Refusal
import FormulaTable.Proofs.Table.SelfReference

/-!
# What a pass writes

A pass over a row ends whatever the row holds. It writes texts, under the names and the tooltip keys
of formula columns and nowhere else; where nothing is computed it leaves the cells alone, except
those of columns that failed to compile.
-/

namespace FormulaTable.Table

variable {shower : Shower} {t : Table} {row : Row} {options : Options} {enabled : Bool}
  {key name : String} {names : List String}

def HoldsText (row : Row) (key : String) : Prop := ∃ s, row.get? key = some (.text s)

theorem holdsText_set (row : Row) (key s : String) : HoldsText (row.set key (.text s)) key :=
  ⟨s, Keyed.get?_set_self ..⟩

theorem HoldsText.set (h : HoldsText row key) (other s : String) :
    HoldsText (row.set other (.text s)) key := by
  by_cases hkey : key = other
  · subst hkey
    exact holdsText_set row key s
  · rw [HoldsText, Keyed.get?_set_of_ne hkey]
    exact h

theorem HoldsText.write (h : HoldsText row key) (name cell tooltip : String) :
    HoldsText (t.write row name cell tooltip) key := (h.set name cell).set _ tooltip

theorem holdsText_write (t : Table) (row : Row) (name cell tooltip : String) :
    HoldsText (t.write row name cell tooltip) name ∧
      HoldsText (t.write row name cell tooltip) (t.tooltipKey name) :=
  ⟨(holdsText_set row name cell).set _ tooltip, holdsText_set _ _ tooltip⟩

theorem HoldsText.computeColumn (h : HoldsText row key) (name : String) :
    HoldsText (computeColumn shower t row name).1 key := by
  rw [computeColumn_row]
  cases t.verdict shower row name with
  | none => exact h
  | some p => exact h.write name p.1 p.2

theorem HoldsText.computeColumns (h : HoldsText row key) (names : List String) :
    HoldsText (computeColumns shower t row names).1 key := by
  induction names generalizing row with
  | nil => exact h
  | cons name rest ih => exact ih (h.computeColumn name)

theorem holdsText_computeColumn (h : t.isFormulaColumn name = true) (shower : Shower) (row : Row) :
    HoldsText (computeColumn shower t row name).1 name ∧
      HoldsText (computeColumn shower t row name).1 (t.tooltipKey name) := by
  obtain ⟨p, hp⟩ := Option.isSome_iff_exists.mp (isSome_verdict h shower row)
  rw [computeColumn_row, hp]
  exact holdsText_write t row name p.1 p.2

theorem holdsText_computeColumns (h : t.isFormulaColumn name = true) (hn : name ∈ names)
    (shower : Shower) (row : Row) :
    HoldsText (computeColumns shower t row names).1 name ∧
      HoldsText (computeColumns shower t row names).1 (t.tooltipKey name) := by
  obtain ⟨before, later, rfl⟩ := List.append_of_mem hn
  rw [computeColumns_append, computeColumns_cons]
  -- What the column writes at its turn, later turns may write over, but with texts only.
  have hturn := holdsText_computeColumn h shower (computeColumns shower t row before).1
  exact ⟨hturn.1.computeColumns later, hturn.2.computeColumns later⟩

theorem longestNumeral_eq : Cell.longestNumeral = 4300 := by rw [Cell.longestNumeral]

theorem exists_disabledText (h : Decimal.digitCount t.options.rowLimit ≤ 4300) :
    ∃ s, t.disabledText = .ok s := by
  have hpow : 10 ^ Decimal.digitCount t.options.rowLimit ≤ 10 ^ Cell.longestNumeral :=
    Nat.pow_le_pow_right (by decide) (longestNumeral_eq ▸ h)
  have hlimit : ¬ 10 ^ Cell.longestNumeral ≤ (t.options.rowLimit : Int).natAbs := by
    rw [Int.natAbs_natCast, not_le]
    exact (Decimal.lt_pow_digitCount t.options.rowLimit).trans_le hpow
  rw [disabledText, Cell.wholeText, if_neg hlimit]
  exact ⟨_, rfl⟩

def disableColumn (t : Table) (s : String) (row : Row) (name : String) : Row :=
  match t.failures.get? name with
  | some message => t.write row name t.options.errorValue (parseFailedText message)
  | none => row.set (t.tooltipKey name) (.text s)

theorem disableColumns_eq_foldl {s : String} (h : t.disabledText = .ok s) (row : Row)
    (names : List String) :
    disableColumns t row names = (names.foldl (t.disableColumn s) row, none) := by
  induction names generalizing row with
  | nil => rfl
  | cons name rest ih =>
    rw [List.foldl_cons, ← ih]
    unfold disableColumn
    cases hf : t.failures.get? name with
    | some message => rw [disableColumns_of_failure hf]
    | none => simp only [disableColumns, hf, h]

theorem HoldsText.disableColumn (h : HoldsText row key) (s name : String) :
    HoldsText (t.disableColumn s row name) key := by
  unfold Table.disableColumn
  split
  · exact h.write name _ _
  · exact h.set _ s

theorem HoldsText.foldl_disableColumn (h : HoldsText row key) (s : String) (names : List String) :
    HoldsText (names.foldl (t.disableColumn s) row) key := by
  induction names generalizing row with
  | nil => exact h
  | cons name rest ih => exact ih (h.disableColumn s name)

theorem holdsText_disableColumn (t : Table) (s : String) (row : Row) (name : String) :
    HoldsText (t.disableColumn s row name) (t.tooltipKey name) := by
  unfold disableColumn
  split
  · exact (holdsText_write t row name _ _).2
  · exact holdsText_set row _ s

theorem holdsText_foldl_disableColumn (hn : name ∈ names) (s : String) (row : Row) :
    HoldsText (names.foldl (t.disableColumn s) row) (t.tooltipKey name) := by
  obtain ⟨before, later, rfl⟩ := List.append_of_mem hn
  rw [List.foldl_append, List.foldl_cons]
  exact (holdsText_disableColumn t s _ name).foldl_disableColumn s later

theorem mem_disabledKeys :
    key ∈ t.disabledKeys names ↔
      (∃ name ∈ names, key = t.tooltipKey name) ∨ key ∈ names ∧ t.failures.contains key = true := by
  rw [disabledKeys, List.mem_flatMap]
  constructor
  · rintro ⟨name, hn, hkey⟩
    split at hkey
    · next hfailure =>
      rcases List.mem_cons.mp hkey with rfl | hkey
      · exact .inr ⟨hn, hfailure⟩
      · exact .inl ⟨name, hn, List.mem_singleton.mp hkey⟩
    · exact .inl ⟨name, hn, List.mem_singleton.mp hkey⟩
  · rintro (⟨name, hn, rfl⟩ | ⟨hn, hfailure⟩)
    · exact ⟨name, hn, by split <;> simp⟩
    · exact ⟨key, hn, by rw [if_pos hfailure]; exact List.mem_cons_self⟩

theorem apply_false {s : String} (h : t.disabledText = .ok s) (shower : Shower) (row : Row) :
    t.apply shower row false = ⟨t.order.foldl (t.disableColumn s) row, [], none⟩ := by
  simp only [apply, Bool.false_eq_true, if_false, disableColumns_eq_foldl h]

theorem Reachable.mem_order (h : Reachable shower options t) :
    name ∈ t.order ↔ t.isFormulaColumn name = true := by
  obtain ⟨actions, rfl⟩ := h
  rw [(prepared_after shower options actions).consistent.mem_order name, isFormulaColumn,
    Bool.or_eq_true, Keyed.contains, Keyed.contains]

theorem apply_holdsText (hs : enabled = true ∨ ∃ s, t.disabledText = .ok s) (shower : Shower)
    (row : Row) :
    (t.apply shower row enabled).fault = none ∧
      ∀ name ∈ t.order, t.isFormulaColumn name = true →
        HoldsText (t.apply shower row enabled).row (t.tooltipKey name) ∧
          (enabled = true → HoldsText (t.apply shower row enabled).row name) := by
  cases enabled with
  | true =>
    refine ⟨rfl, fun name hn hname => ?_⟩
    obtain ⟨hcell, htip⟩ := holdsText_computeColumns hname hn shower row
    exact ⟨htip, fun _ => hcell⟩
  | false =>
    obtain ⟨s, hs⟩ := hs.resolve_left Bool.false_ne_true
    rw [apply_false hs]
    exact ⟨rfl, fun name hn _ => ⟨holdsText_foldl_disableColumn hn s row, nofun⟩⟩

theorem RowNotice.fits {n : Journal.Notice} (h : RowNotice n) : n.Fits := by
  unfold Journal.Notice.Fits
  cases h with
  | displayFailed column =>
    simp only [Table.displayFailed, List.forall_mem_cons]
    decide +kernel
  | evaluationFailed f e =>
    simp only [Journal.evaluationFailed, List.forall_mem_cons]
    decide +kernel

/-- A pass over a row of arbitrary values always ends, where formulas are computed or the row limit
has a text. It keeps what is under other keys than the names and the tooltip keys of formula
columns, leaves a text under each tooltip key and, where formulas are computed, under each name; and
where they are not, it keeps every cell but those of columns that failed to compile. All that it
reports can be recorded, and no number that a formula gives is beyond a format. -/
theorem apply_owned (ht : Reachable shower options t) (row : Row)
    (he : enabled = true ∨ Decimal.digitCount options.rowLimit ≤ 4300) :
    (t.apply shower row enabled).fault = none ∧
      (∀ n ∈ (t.apply shower row enabled).notices, n.Fits) ∧
      (∀ key, (∀ name, t.isFormulaColumn name = true → key ≠ name ∧ key ≠ t.tooltipKey name) →
        (t.apply shower row enabled).row.get? key = row.get? key) ∧
      (∀ name, t.isFormulaColumn name = true →
        HoldsText (t.apply shower row enabled).row (t.tooltipKey name) ∧
          (enabled = true → HoldsText (t.apply shower row enabled).row name)) ∧
      (enabled = false → ∀ key, (∀ name, t.isFormulaColumn name = true → key ≠ t.tooltipKey name) →
        t.failures.get? key = none → (t.apply shower row enabled).row.get? key = row.get? key) ∧
      ∀ name f, t.compiled.get? name = some f → ∀ (reached : Row) (x : Float),
        (evaluateOn shower t f reached).1 = .ok (.number x) → ∀ format : NumberFormat,
          (∃ s, format.text? x = some s) ∧ format.shownCount x < 10 ^ 400 := by
  have hs : enabled = true ∨ ∃ s, t.disabledText = .ok s :=
    he.imp_right fun h => exists_disabledText (by rwa [ht.built.options_eq])
  obtain ⟨hfault, htexts⟩ := apply_holdsText hs shower row
  refine ⟨hfault, fun n hn => (rowNotice_of_apply hn).fits, ?_,
    fun name hname => htexts name (ht.mem_order.mpr hname) hname, ?_, ?_⟩
  · intro key hkey
    refine (agreeOff_apply shower t row enabled key ?_).symm
    rw [mem_ownKeys]
    rintro (hmem | ⟨name, hmem, rfl⟩)
    · exact (hkey key (ht.mem_order.mp hmem)).1 rfl
    · exact (hkey name (ht.mem_order.mp hmem)).2 rfl
  · rintro rfl key hkey hfailure
    refine (disabledColumns_agreeOff t row t.order key ?_).symm
    rw [mem_disabledKeys]
    rintro (⟨name, hmem, rfl⟩ | ⟨-, hcontains⟩)
    · exact hkey name (ht.mem_order.mp hmem) rfl
    · rw [Keyed.contains, hfailure] at hcontains
      cases hcontains
  · intro name f hf reached x hx format
    have hfinite : x.isFinite = true := Formula.evaluate_isFinite (ht.built.genuine name f hf) hx
    exact ⟨isSome_text? format hfinite, format.shownCount_lt hfinite⟩

/-- An object without a text, a whole number beyond the doubles and a column whose cells cannot be
shown are in the way of nothing. -/
theorem apply_owned_hostile :
    let t := ((new .standard).prepare
      [.column ⟨"When", .date, none, none, none, none⟩,
        .column
          ⟨"Rate", .formula, some "\x7bHuge\x7d / \x7bWhen\x7d", some .percentFixed2, none, none⟩,
        .column ⟨"Odd", .formula, some "1 +* 2", none, none, none⟩]).table
    let row : Row := ⟨[("When", .mute), ("Huge", .whole (10 ^ 5000)), ("Note", .number (0 / 0))]⟩
    let mute : Shower := fun _ _ => none
    (t.apply mute row true).fault = none ∧ (t.apply mute row false).fault = none ∧
      (t.apply mute row true).row.get? "Note" = row.get? "Note" ∧
      HoldsText (t.apply mute row true).row "Rate" ∧
      HoldsText (t.apply mute row false).row (t.tooltipKey "Rate") ∧
      (t.apply mute row false).row.get? "Rate" = none := by
  intro t row mute
  have ht : Reachable mute .standard t := ⟨[.prepare _], rfl⟩
  have horder : t.order = ["Rate", "Odd"] := by decide +kernel
  have hcolumns : ∀ name, t.isFormulaColumn name = true → name ∈ ["Rate", "Odd"] := by
    intro name hname
    rw [← horder]
    exact ht.mem_order.mpr hname
  have hrate : t.isFormulaColumn "Rate" = true := by decide +kernel
  have hnote : ∀ name ∈ ["Rate", "Odd"], "Note" ≠ name ∧ "Note" ≠ t.tooltipKey name := by
    decide +kernel
  have hcell : ∀ name ∈ ["Rate", "Odd"], "Rate" ≠ t.tooltipKey name := by decide +kernel
  obtain ⟨hfault, -, hkept, htexts, -, -⟩ := @apply_owned mute t .standard true ht row (.inl rfl)
  obtain ⟨hfault', -, -, htexts', hcells, -⟩ :=
    @apply_owned mute t .standard false ht row (.inr (by decide))
  refine ⟨hfault, hfault', hkept _ fun name hname => hnote name (hcolumns name hname),
    (htexts _ hrate).2 rfl, (htexts' _ hrate).1, ?_⟩
  rw [hcells rfl "Rate" (fun name hname => hcell name (hcolumns name hname)) (by decide +kernel)]
  rfl

end FormulaTable.Table
