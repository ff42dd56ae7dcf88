import FormulaTable.Proofs.Table.Recompute
import Mathlib.Data.List.Nodup
import Mathlib.Data.List.Perm.Basic

/-!
# The order of the columns

Computing a column again in a row that is complete changes nothing. So every order of the columns
in which formulas read backward ends at the same row.
-/

namespace FormulaTable.Table
open Keyed (AgreeOff)

variable {shower : Shower} {t u : Table} {names : List String} {row first second : Row}

structure Alike (t u : Table) : Prop where
  options : t.options = u.options
  compiled : AgreeOff [] t.compiled u.compiled
  failures : AgreeOff [] t.failures u.failures
  formats : AgreeOff [] t.formats u.formats
  displays : AgreeOff [] t.displays u.displays

theorem gather_of_mem {α : Type} (give : Column → Option α) {columns : List Column}
    (hn : (columns.map (·.name)).Nodup) {c : Column} {v : α} (hc : c ∈ columns)
    (hv : give c = some v) : (gather give columns).get? c.name = some v := by
  have honly := gather_get?_of_only give hc fun d hd => List.inj_on_of_nodup_map hn hd hc
  exact honly.trans hv

theorem gather_perm {α : Type} (give : Column → Option α) {columns others : List Column}
    (hp : columns.Perm others) (hn : (columns.map (·.name)).Nodup) :
    AgreeOff [] (gather give columns) (gather give others) := by
  have hn' : (others.map (·.name)).Nodup := (hp.map _).nodup hn
  intro key _
  apply Option.ext
  intro v
  constructor
  · intro h
    obtain ⟨c, hc, rfl, hv⟩ := gather_get? give h
    exact gather_of_mem give hn' (hp.mem_iff.mp hc) hv
  · intro h
    obtain ⟨c, hc, rfl, hv⟩ := gather_get? give h
    exact gather_of_mem give hn (hp.mem_iff.mpr hc) hv

theorem build_alike (options : Options) {columns others : List Column}
    (hp : columns.Perm others) (hn : (columns.map (·.name)).Nodup) :
    Alike (build options columns) (build options others) where
  options := rfl
  compiled := gather_perm form? hp hn
  failures := gather_perm failure? hp hn
  formats := gather_perm format? hp hn
  displays := gather_perm displayOf? hp hn

theorem Alike.seenField (h : Alike t u) : seenField shower t = seenField shower u := by
  funext row name
  simp [Table.seenField, h.displays.get?]

theorem Alike.computeColumn (h : Alike t u) (row : Row) (name : String) :
    (computeColumn shower t row name).1 = (computeColumn shower u row name).1 := by
  have hv : t.verdict shower row name = u.verdict shower row name := by
    simp [verdict, evaluateOn, h.failures.get?, h.compiled.get?,
      h.formats.get?, h.seenField, h.options]
  have hw : t.write = u.write := by
    funext row name cell tooltip
    simp [write, tooltipKey, h.options]
  rw [computeColumn_row, computeColumn_row, hv, hw]

theorem Alike.computeColumns (h : Alike t u) (row : Row) (names : List String) :
    (computeColumns shower t row names).1 = (computeColumns shower u row names).1 := by
  induction names generalizing row with
  | nil => rfl
  | cons name rest ih => rw [computeColumns_cons, computeColumns_cons, ih, h.computeColumn]

theorem Alike.readsBackward (h : Alike t u) (hr : u.ReadsBackward names) :
    t.ReadsBackward names := by
  have hkeys : t.ownKeys = u.ownKeys := by
    funext names
    simp [ownKeys, tooltipKey, h.options]
  have hdep : t.dependencies = u.dependencies := by
    funext name
    simp [dependencies, h.compiled.get?]
  induction names with
  | nil => trivial
  | cons name rest ih =>
    refine ⟨?_, ih hr.2⟩
    rw [hkeys, hdep]
    exact hr.1

/-- No tooltip is kept under the name of one of the columns. -/
def TooltipsApart (t : Table) (names : List String) : Prop :=
  ∀ name ∈ names, t.tooltipKey name ∉ names

instance decidableTooltipsApart (t : Table) (names : List String) :
    Decidable (t.TooltipsApart names) :=
  inferInstanceAs (Decidable (∀ name ∈ names, t.tooltipKey name ∉ names))

theorem tooltipKey_injective (t : Table) : Function.Injective t.tooltipKey := by
  intro a b h
  exact (String.append_right_inj _).mp h

theorem mem_ownKeys {key : String} :
    key ∈ t.ownKeys names ↔ key ∈ names ∨ ∃ name ∈ names, key = t.tooltipKey name := by
  simp only [ownKeys, List.mem_flatMap, List.mem_cons, List.not_mem_nil, or_false]
  grind

theorem cell_notMem_ownKeys {name : String} {rest : List String} (hn : name ∉ rest)
    (ha : t.TooltipsApart (name :: rest)) : name ∉ t.ownKeys rest := by
  intro h
  rcases mem_ownKeys.mp h with hmem | ⟨other, ho, he⟩
  · exact hn hmem
  · exact ha other (List.mem_cons_of_mem _ ho) (he ▸ List.mem_cons_self)

theorem tooltip_notMem_ownKeys {name : String} {rest : List String} (hn : name ∉ rest)
    (ha : t.TooltipsApart (name :: rest)) : t.tooltipKey name ∉ t.ownKeys rest := by
  intro h
  rcases mem_ownKeys.mp h with hmem | ⟨other, ho, he⟩
  · exact ha name List.mem_cons_self (List.mem_cons_of_mem _ hmem)
  · exact hn (t.tooltipKey_injective he ▸ ho)

theorem computeColumn_congr (hg : Genuine t.compiled) (h : AgreeOff [] first second)
    (name : String) :
    AgreeOff [] (computeColumn shower t first name).1 (computeColumn shower t second name).1 := by
  have hv : t.verdict shower first name = t.verdict shower second name :=
    verdict_congr hg fun d _ => h.get? d
  rw [computeColumn_row, computeColumn_row, hv]
  cases t.verdict shower second name with
  | none => exact h
  | some p => exact AgreeOff.set (AgreeOff.set (h.mono (List.nil_subset _)) _) _

theorem computeColumns_congr (hg : Genuine t.compiled) (h : AgreeOff [] first second)
    (names : List String) :
    AgreeOff [] (computeColumns shower t first names).1
      (computeColumns shower t second names).1 := by
  induction names generalizing first second with
  | nil => exact h
  | cons name rest ih => exact ih (computeColumn_congr hg h name)

theorem write_get?_own {name key : String} (hk : key = name ∨ key = t.tooltipKey name)
    (first second : Row) (cell tooltip : String) :
    (t.write first name cell tooltip).get? key = (t.write second name cell tooltip).get? key := by
  unfold write
  by_cases ht : key = t.tooltipKey name
  · rw [ht, Keyed.get?_set_self, Keyed.get?_set_self]
  · obtain rfl := hk.resolve_right ht
    rw [Keyed.get?_set_of_ne ht, Keyed.get?_set_of_ne ht, Keyed.get?_set_self,
      Keyed.get?_set_self]

theorem write_get?_of_ne {name key : String} (hk : ¬ (key = name ∨ key = t.tooltipKey name))
    (row : Row) (cell tooltip : String) :
    (t.write row name cell tooltip).get? key = row.get? key := by
  obtain ⟨hname, htip⟩ := not_or.mp hk
  unfold write
  rw [Keyed.get?_set_of_ne htip, Keyed.get?_set_of_ne hname]

theorem computeColumn_first (hg : Genuine t.compiled) {name : String} {rest : List String}
    (hn : name ∉ rest) (ha : t.TooltipsApart (name :: rest))
    (hr : t.ReadsBackward (name :: rest)) (row : Row) :
    AgreeOff [] (computeColumns shower t row (name :: rest)).1
      (computeColumn shower t (computeColumns shower t row (name :: rest)).1 name).1 := by
  have hwhole := agreeOff_computeColumns shower t row (name :: rest)
  have hrest := agreeOff_computeColumns shower t (computeColumn shower t row name).1 rest
  have hv : t.verdict shower row name =
      t.verdict shower (computeColumns shower t row (name :: rest)).1 name :=
    verdict_congr hg fun d hd => hwhole d (hr.1 d hd)
  rw [computeColumns_cons] at hv ⊢
  generalize hfinal : (computeColumns shower t (computeColumn shower t row name).1 rest).1 = final
    at hv hrest ⊢
  rw [computeColumn_row] at hrest ⊢
  rw [← hv]
  cases hp : t.verdict shower row name with
  | none => exact .refl _ _
  | some p =>
    rw [hp] at hrest
    intro key _
    by_cases hk : key = name ∨ key = t.tooltipKey name
    · have hkeep : key ∉ t.ownKeys rest := by
        rcases hk with rfl | rfl
        · exact cell_notMem_ownKeys hn ha
        · exact tooltip_notMem_ownKeys hn ha
      calc final.get? key = (t.write row name p.1 p.2).get? key := (hrest key hkeep).symm
        _ = (t.write final name p.1 p.2).get? key := write_get?_own hk row final p.1 p.2
    · exact (write_get?_of_ne hk final p.1 p.2).symm

theorem computeColumn_again (hg : Genuine t.compiled) (hn : names.Nodup)
    (ha : t.TooltipsApart names) (hr : t.ReadsBackward names) (row : Row) :
    ∀ name ∈ names, AgreeOff [] (computeColumns shower t row names).1
      (computeColumn shower t (computeColumns shower t row names).1 name).1 := by
  induction names generalizing row with
  | nil =>
    intro name hmem
    cases hmem
  | cons first rest ih =>
    intro name hmem
    obtain ⟨hfirst, hrest⟩ := List.nodup_cons.mp hn
    rcases List.mem_cons.mp hmem with rfl | hlater
    · exact computeColumn_first hg hfirst ha hr row
    · have harest : t.TooltipsApart rest := by
        intro other ho h
        exact ha other (List.mem_cons_of_mem _ ho) (List.mem_cons_of_mem _ h)
      exact ih hrest harest hr.2 _ name hlater

theorem computeColumns_fixed (hg : Genuine t.compiled)
    (h : ∀ name ∈ names, AgreeOff [] row (computeColumn shower t row name).1) :
    AgreeOff [] row (computeColumns shower t row names).1 := by
  induction names with
  | nil => exact .refl _ _
  | cons name rest ih =>
    have hrest : AgreeOff [] row (computeColumns shower t row rest).1 :=
      ih fun other ho => h other (List.mem_cons_of_mem _ ho)
    exact hrest.trans (computeColumns_congr hg (h name List.mem_cons_self) rest)

theorem computeColumns_perm (hg : Genuine t.compiled) {others : List String}
    (hp : names.Perm others) (hn : names.Nodup)
    (hf : ∀ name ∈ names, t.isFormulaColumn name = true) (ha : t.TooltipsApart names)
    (hr : t.ReadsBackward names) (hr' : t.ReadsBackward others)
    (h : AgreeOff [] first second) :
    AgreeOff [] (computeColumns shower t first names).1
      (computeColumns shower t second others).1 := by
  have hkeys : t.ownKeys names ⊆ t.ownKeys others := (hp.flatMap_right _).subset
  -- The finished row stands still under the other order ...
  have hfixed : AgreeOff [] (computeColumns shower t first names).1
      (computeColumns shower t (computeColumns shower t first names).1 others).1 := by
    apply computeColumns_fixed hg
    intro name hmem
    exact computeColumn_again hg hn ha hr first name (hp.mem_iff.mpr hmem)
  -- ... and the other order does not see where it starts from.
  have hstart : AgreeOff (t.ownKeys others) (computeColumns shower t first names).1 second := by
    have hfinal := (agreeOff_computeColumns shower t first names).mono hkeys
    exact hfinal.symm.trans (h.mono (List.nil_subset _))
  have hf' : ∀ name ∈ others, t.isFormulaColumn name = true :=
    fun name hmem => hf name (hp.mem_iff.mpr hmem)
  exact hfixed.trans (computeColumns_agreeOff hg hf' hr' hstart)

def givenNames (entries : List ColumnEntry) : List String :=
  entries.filterMap fun entry => (readEntry entry).toOption.map (·.name)

theorem mapM_readEntry {entries : List ColumnEntry} {columns : List Column} :
    entries.mapM readEntry = .ok columns ↔
      List.Forall₂ (fun entry c => readEntry entry = .ok c) entries columns := by
  constructor
  · intro h
    induction entries generalizing columns with
    | nil =>
      cases h
      exact .nil
    | cons entry entries ih =>
      rw [List.mapM_cons] at h
      obtain ⟨c, hc, h⟩ := Formula.bind_eq_ok h
      obtain ⟨rest, hrest, h⟩ := Formula.bind_eq_ok h
      cases h
      exact .cons hc (ih hrest)
  · intro h
    induction h with
    | nil => rfl
    | cons hc _ ih =>
      rw [List.mapM_cons, hc, ih]
      rfl

theorem mapM_readEntry_perm {entries others : List ColumnEntry} (hp : entries.Perm others)
    {columns : List Column} (h : entries.mapM readEntry = .ok columns) :
    ∃ columns', others.mapM readEntry = .ok columns' ∧ columns.Perm columns' := by
  obtain ⟨columns', hread, hp'⟩ := List.perm_comp_forall₂ hp.symm (mapM_readEntry.mp h)
  exact ⟨columns', mapM_readEntry.mpr hread, hp'.symm⟩

theorem givenNames_eq {entries : List ColumnEntry} {columns : List Column}
    (h : entries.mapM readEntry = .ok columns) : givenNames entries = columns.map (·.name) := by
  have hread := mapM_readEntry.mp h
  clear h
  induction hread with
  | nil => rfl
  | @cons entry c entries columns hc _ ih =>
    have hname : givenNames (entry :: entries) = c.name :: givenNames entries := by
      apply List.filterMap_cons_some
      rw [hc]
      rfl
    rw [hname, ih, List.map_cons]

theorem order_sublist (columns : List Column) :
    (columns.filterMap formulaName?).Sublist (columns.map (·.name)) := by
  induction columns with
  | nil => exact .slnil
  | cons c columns ih =>
    cases hc : c.trimmedFormula? with
    | none => simpa [formulaName?, hc] using ih.cons c.name
    | some raw => simpa [formulaName?, hc] using ih.cons_cons c.name

theorem compute_build_perm (options : Options) {columns others : List Column}
    (hp : columns.Perm others) (hn : (columns.map (·.name)).Nodup)
    (hr : (build options columns).ReadsBackward (build options columns).order)
    (hr' : (build options others).ReadsBackward (build options others).order)
    (ha : (build options columns).TooltipsApart (build options columns).order)
    (h : AgreeOff [] first second) :
    AgreeOff [] (compute shower (build options columns) first).1
      (compute shower (build options others) second).1 := by
  have halike := build_alike options hp hn
  have hbuilt := built_build options columns
  unfold compute
  rw [← halike.computeColumns]
  exact computeColumns_perm hbuilt.genuine (hp.filterMap formulaName?)
    (hn.sublist (order_sublist columns)) hbuilt.isFormulaColumn ha hr (halike.readsBackward hr') h

/-- Two tables prepared with the same columns in two orders, in both of which formulas read
backward, compute the same row. -/
theorem apply_column_order {options : Options} {before before' : Table}
    (hb : Reachable shower options before) (hb' : Reachable shower options before')
    {entries others : List ColumnEntry} (hp : entries.Perm others)
    (hn : (givenNames entries).Nodup)
    (ht : t = (before.prepare entries).table) (hu : u = (before'.prepare others).table)
    (hr : t.ReadsBackward t.order) (hr' : u.ReadsBackward u.order)
    (ha : t.TooltipsApart t.order) (hrow : ∀ key : String, first.get? key = second.get? key)
    (key : String) :
    (t.apply shower first true).row.get? key = (u.apply shower second true).row.get? key := by
  have hagree : AgreeOff [] first second := fun other _ => hrow other
  cases hc : entries.mapM readEntry with
  | error e =>
    have hc' : ∃ e', others.mapM readEntry = .error e' := by
      cases ho : others.mapM readEntry with
      | error e' => exact ⟨e', rfl⟩
      | ok columns' =>
        obtain ⟨columns, hcolumns, -⟩ := mapM_readEntry_perm hp.symm ho
        rw [hcolumns] at hc
        cases hc
    obtain ⟨e', he'⟩ := hc'
    rw [ht, hu, prepare_error _ hc, prepare_error _ he']
    exact hrow key
  | ok columns =>
    obtain ⟨columns', hc', hperm⟩ := mapM_readEntry_perm hp hc
    rw [givenNames_eq hc] at hn
    rw [prepare_ok hb.built.genuine hc, hb.built.options_eq] at ht
    rw [prepare_ok hb'.built.genuine hc', hb'.built.options_eq] at hu
    subst ht hu
    exact (compute_build_perm options hperm hn hr hr' ha hagree).get? key

def dueColumn : ColumnEntry := .column ⟨"Due", .date, none, none, none, none⟩

def reminderColumn : ColumnEntry :=
  .column ⟨"Reminder", .formula, some "\"Pay by \" + {Due}", none, none, none⟩

theorem apply_column_order_bill :
    let t := ((new .standard).prepare (saleColumns ++ [dueColumn, reminderColumn])).table
    let u := ((new .standard).prepare (reminderColumn :: dueColumn :: saleColumns)).table
    t.order = ["Subtotal", "Total", "Reminder"] ∧ u.order = ["Reminder", "Subtotal", "Total"] ∧
      ∀ (row : Row) (key : String),
        (t.apply standardShower row true).row.get? key =
          (u.apply standardShower row true).row.get? key := by
  have hp : (saleColumns ++ [dueColumn, reminderColumn]).Perm
      (reminderColumn :: dueColumn :: saleColumns) :=
    List.perm_append_comm.trans (.swap reminderColumn dueColumn saleColumns)
  refine ⟨by decide +kernel, by decide +kernel, ?_⟩
  intro row key
  exact apply_column_order ⟨[], rfl⟩ ⟨[], rfl⟩ hp (by decide +kernel) rfl rfl
    (by decide +kernel) (by decide +kernel) (by decide +kernel) (fun _ => rfl) key

end FormulaTable.Table
