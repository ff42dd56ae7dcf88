import FormulaTable.Proofs.Formula.Asking
import FormulaTable.Proofs.Table.ColumnOrder

/-!
# What a table's parts say of each other

The order, the compiled forms, the failures and the formats of a table are kept apart. After any
run they tell one story: that of the entries of the last preparation, or of none if these were
refused.
-/

namespace FormulaTable.Table
open Formula (compile evaluate)

variable {t : Table} {options : Options}

/-- The parts of the table agree with each other and with the entries it was prepared for. -/
structure Consistent (t : Table) (entries : List ColumnEntry) : Prop where
  mem_order : ∀ name, name ∈ t.order ↔
    (t.compiled.get? name).isSome = true ∨ (t.failures.get? name).isSome = true
  compile_raw : ∀ name f, t.compiled.get? name = some f → compile f.raw = .ok f
  raw_given : ∀ name f, t.compiled.get? name = some f →
    ∃ entry ∈ entries, ∃ c, readEntry entry = .ok c ∧ c.name = name ∧
      c.trimmedFormula? = some f.raw
  not_own : ∀ name f, t.compiled.get? name = some f →
    name ∉ f.dependencies ∧ ∀ lookup, name ∉ (evaluate f lookup).asked
  twice : ∀ name, (t.compiled.get? name).isSome = true → (t.failures.get? name).isSome = true →
    2 ≤ (givenNames entries).count name
  format : ∀ name g, t.formats.get? name = some g →
    g ∈ NumberFormat.all ∧ g ≠ .auto ∧
      ∃ entry ∈ entries, ∃ c, readEntry entry = .ok c ∧ c.name = name ∧ c.numberFormat = some g

theorem form?_eq_none_of_failure {c : Column} (h : (failure? c).isSome = true) :
    form? c = none := by
  unfold failure? at h
  unfold form?
  cases ho : outcome? c with
  | none => rfl
  | some r =>
    cases r with
    | error message => rfl
    | ok f => simp [ho] at h

theorem formulaName?_of_outcome {c : Column}
    (h : (form? c).isSome = true ∨ (failure? c).isSome = true) : formulaName? c = some c.name := by
  unfold form? failure? outcome? at h
  cases hc : c.trimmedFormula? with
  | none => simp [hc] at h
  | some raw => rw [formulaName?, hc, Option.map_some]

theorem format?_eq_some {c : Column} {g : NumberFormat} (h : format? c = some g) :
    c.numberFormat = some g ∧ g ≠ .auto := by
  unfold format? at h
  split at h
  · cases h
  · cases h
  · next hauto hformat =>
    cases h
    refine ⟨hformat, ?_⟩
    rintro rfl
    exact hauto rfl

theorem asked_subset_dependencies {raw : String} {f : Formula.Compiled} (h : compile raw = .ok f)
    (lookup : Formula.Lookup) : (evaluate f lookup).asked ⊆ f.dependencies := by
  intro name hname
  rw [Formula.mem_dependencies h]
  exact (Formula.evaluateCode_asked_initial lookup f.code).subset hname

theorem exists_entry {entries : List ColumnEntry} {c : Column} (h : c ∈ columnsOf entries) :
    ∃ entry ∈ entries, readEntry entry = .ok c := by
  unfold columnsOf at h
  cases hread : entries.mapM readEntry with
  | error e =>
    rw [hread] at h
    cases h
  | ok columns =>
    rw [hread] at h
    have hpairs := mapM_readEntry.mp hread
    clear hread
    induction hpairs with
    | nil => cases h
    | @cons entry d entries columns hd _ ih =>
      rcases List.mem_cons.mp h with rfl | h
      · exact ⟨entry, List.mem_cons_self, hd⟩
      · obtain ⟨other, ho, hc⟩ := ih h
        exact ⟨other, List.mem_cons_of_mem entry ho, hc⟩

theorem two_le_count {columns : List Column} {c d : Column} (hc : c ∈ columns) (hd : d ∈ columns)
    (hne : d ≠ c) (hname : d.name = c.name) : 2 ≤ (columns.map (·.name)).count c.name := by
  obtain ⟨before, rest, rfl⟩ := List.append_of_mem hc
  have hother : c.name ∈ (before ++ rest).map (·.name) := by
    rw [← hname]
    apply List.mem_map_of_mem
    simpa [hne] using hd
  have hcount := List.count_pos_iff.mpr hother
  rw [List.map_append, List.count_append] at hcount
  rw [List.map_append, List.map_cons, List.count_append, List.count_cons_self]
  omega

theorem two_le_count_givenNames {entries : List ColumnEntry} {c d : Column}
    (hc : c ∈ columnsOf entries) (hd : d ∈ columnsOf entries) (hne : d ≠ c)
    (hname : d.name = c.name) : 2 ≤ (givenNames entries).count c.name := by
  unfold columnsOf at hc hd
  cases hread : entries.mapM readEntry with
  | error e =>
    rw [hread] at hc
    cases hc
  | ok columns =>
    rw [hread] at hc hd
    rw [givenNames_eq hread]
    exact two_le_count hc hd hne hname

theorem Prepared.consistent {entries : List ColumnEntry} (h : Prepared options entries t) :
    Consistent t entries := by
  have hbuilt := h.built
  obtain ⟨noticed, rfl⟩ := h
  constructor
  case mem_order =>
    intro name
    constructor
    · intro hname
      simpa [isFormulaColumn, Keyed.contains] using hbuilt.isFormulaColumn name hname
    · intro hsome
      have hcolumn : ∃ c ∈ columnsOf entries, c.name = name ∧
          ((form? c).isSome = true ∨ (failure? c).isSome = true) := by
        rcases hsome with hsome | hsome <;> obtain ⟨v, hv⟩ := Option.isSome_iff_exists.mp hsome
        · obtain ⟨c, hc, hname, hform⟩ := gather_get? form? hv
          exact ⟨c, hc, hname, .inl (by rw [hform]; rfl)⟩
        · obtain ⟨c, hc, hname, hfailure⟩ := gather_get? failure? hv
          exact ⟨c, hc, hname, .inr (by rw [hfailure]; rfl)⟩
      obtain ⟨c, hc, rfl, houtcome⟩ := hcolumn
      exact List.mem_filterMap.mpr ⟨c, hc, formulaName?_of_outcome houtcome⟩
  case compile_raw => exact hbuilt.genuine
  case raw_given =>
    intro name f hf
    obtain ⟨c, hc, hname, hform⟩ := gather_get? form? hf
    obtain ⟨entry, hentry, hread⟩ := exists_entry hc
    exact ⟨entry, hentry, c, hread, hname, (form?_eq_some hform).1⟩
  case not_own =>
    intro name f hf
    obtain ⟨c, -, rfl, hform⟩ := gather_get? form? hf
    obtain ⟨-, hcompile, hreferences⟩ := form?_eq_some hform
    have hown : c.name ∉ f.dependencies := by
      simpa [Formula.Compiled.references] using hreferences
    exact ⟨hown, fun lookup hasked => hown (asked_subset_dependencies hcompile lookup hasked)⟩
  case twice =>
    intro name hcompiled hfailures
    obtain ⟨f, hf⟩ := Option.isSome_iff_exists.mp hcompiled
    obtain ⟨message, hm⟩ := Option.isSome_iff_exists.mp hfailures
    obtain ⟨c, hc, rfl, hform⟩ := gather_get? form? hf
    obtain ⟨d, hd, hname, hfailure⟩ := gather_get? failure? hm
    have hne : d ≠ c := by
      rintro rfl
      have hnone := form?_eq_none_of_failure (by rw [hfailure]; rfl)
      rw [hnone] at hform
      cases hform
    exact two_le_count_givenNames hc hd hne hname
  case format =>
    intro name g hg
    obtain ⟨c, hc, hname, hformat⟩ := gather_get? format? hg
    obtain ⟨entry, hentry, hread⟩ := exists_entry hc
    obtain ⟨hgiven, hne⟩ := format?_eq_some hformat
    exact ⟨g.mem_all, hne, entry, hentry, c, hread, hname, hgiven⟩

/-- Whatever was done with a table, and whether or not its preparations were refused, its parts
agree with each other and with the entries of the last preparation. -/
theorem consistent_after (shower : Shower) (options : Options) (actions : List Action) :
    Consistent ((new options).after shower actions) (lastEntries actions) :=
  (prepared_after shower options actions).consistent

example :
    let t := ((new .standard).prepare [.column ⟨"A", .formula, some "1", none, none, none⟩,
      .column ⟨"A", .formula, some "\x7bA\x7d", none, none, none⟩]).table
    (t.compiled.get? "A").isSome = true ∧ (t.failures.get? "A").isSome = true := by
  decide +kernel

end FormulaTable.Table
