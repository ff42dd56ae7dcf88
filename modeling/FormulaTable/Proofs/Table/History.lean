import FormulaTable.Proofs.Formula.Reading
import FormulaTable.Table.Pass

/-!
# The history of a table

A table is prepared, computed and asked for its notice, in any order and any number of times. The
compiled forms that it keeps are always those of their own texts, so that a preparation does not
depend on what went before.
-/

namespace FormulaTable.Table

inductive Action
  | prepare (entries : List ColumnEntry)
  | apply (row : Row) (enabled : Bool)
  | applyAll (rows : List Row) (picks : List Nat)
  | notify (rowCount : Nat)

def Action.next (shower : Shower) (t : Table) : Action → Table
  | prepare entries => (t.prepare entries).table
  | apply _ _ => t
  | applyAll rows picks => (t.applyAll shower rows picks).table
  | notify rowCount => (t.takeNotice rowCount).1

def after (shower : Shower) (t : Table) (actions : List Action) : Table :=
  actions.foldl (Action.next shower) t

theorem after_append (shower : Shower) (t : Table) (actions more : List Action) :
    t.after shower (actions ++ more) = (t.after shower actions).after shower more :=
  List.foldl_append

def Action.isPrepare : Action → Bool
  | prepare _ => true
  | _ => false

def Action.entries (earlier : List ColumnEntry) : Action → List ColumnEntry
  | prepare entries => entries
  | _ => earlier

def lastEntries (actions : List Action) : List ColumnEntry := actions.foldl Action.entries []

def outcome? (c : Column) : Option (Except String Formula.Compiled) :=
  c.trimmedFormula?.map fun raw =>
    match Formula.compile raw with
    | .error e => .error e.message
    | .ok f => if f.references c.name then .error selfReferenceMessage else .ok f

def form? (c : Column) : Option Formula.Compiled :=
  match outcome? c with
  | some (.ok f) => some f
  | _ => none

def failure? (c : Column) : Option String :=
  match outcome? c with
  | some (.error message) => some message
  | _ => none

def format? (c : Column) : Option NumberFormat :=
  match c.numberFormat with
  | some .auto | none => none
  | some f => some f

def formulaName? (c : Column) : Option String := c.trimmedFormula?.map fun _ => c.name

section
variable {α : Type} (give : Column → Option α)

def collect (m : Keyed α) (c : Column) : Keyed α :=
  match give c with
  | some v => m.set c.name v
  | none => m

def gather (columns : List Column) : Keyed α := columns.foldl (collect give) .empty

theorem foldl_collect_get? {m : Keyed α} {columns : List Column} {name : String} {v : α}
    (h : (columns.foldl (collect give) m).get? name = some v) :
    m.get? name = some v ∨ ∃ c ∈ columns, c.name = name ∧ give c = some v := by
  induction columns generalizing m with
  | nil => exact .inl h
  | cons c columns ih =>
    rcases ih h with hm | ⟨d, hd, hv⟩
    · cases hg : give c with
      | none => exact .inl (by simpa [collect, hg] using hm)
      | some w =>
        by_cases hn : c.name = name
        · have hw : w = v := by simpa [collect, hg, hn] using hm
          exact .inr ⟨c, List.mem_cons_self, hn, hg.trans (congrArg some hw)⟩
        · rw [collect, hg, Keyed.get?_set_of_ne (Ne.symm hn)] at hm
          exact .inl hm
    · exact .inr ⟨d, List.mem_cons_of_mem c hd, hv⟩

theorem gather_get? {columns : List Column} {name : String} {v : α}
    (h : (gather give columns).get? name = some v) :
    ∃ c ∈ columns, c.name = name ∧ give c = some v := by
  rcases foldl_collect_get? give h with hm | hc
  · cases hm
  · exact hc

theorem collect_contains {m : Keyed α} {name : String} (h : m.contains name = true) (c : Column) :
    (collect give m c).contains name = true := by
  unfold collect
  cases give c with
  | none => exact h
  | some v =>
    by_cases hn : name = c.name
    · simp [Keyed.contains, hn]
    · simpa [Keyed.contains, Keyed.get?_set_of_ne hn] using h

theorem foldl_collect_contains {m : Keyed α} {name : String} (h : m.contains name = true)
    (columns : List Column) : (columns.foldl (collect give) m).contains name = true := by
  induction columns generalizing m with
  | nil => exact h
  | cons c columns ih => exact ih (collect_contains give h c)

theorem gather_contains {columns : List Column} {c : Column} (hc : c ∈ columns)
    (hg : (give c).isSome = true) : (gather give columns).contains c.name = true := by
  obtain ⟨before, rest, rfl⟩ := List.append_of_mem hc
  obtain ⟨v, hv⟩ := Option.isSome_iff_exists.mp hg
  rw [gather, List.foldl_append, List.foldl_cons]
  apply foldl_collect_contains
  simp [collect, hv, Keyed.contains]

theorem gather_get?_of_only {columns : List Column} {c : Column} (hc : c ∈ columns)
    (hsame : ∀ d ∈ columns, d.name = c.name → d = c) :
    (gather give columns).get? c.name = give c := by
  cases hg : (gather give columns).get? c.name with
  | some v =>
    obtain ⟨d, hd, hname, hv⟩ := gather_get? give hg
    rw [← hsame d hd hname, hv]
  | none =>
    cases hv : give c with
    | none => rfl
    | some v =>
      have hsome := gather_contains give hc (by rw [hv]; rfl)
      rw [Keyed.contains, hg] at hsome
      cases hsome

end

def build (options : Options) (columns : List Column) : Table where
  options
  compiled := gather form? columns
  failures := gather failure? columns
  order := columns.filterMap formulaName?
  formats := gather format? columns
  displays := gather displayOf? columns
  noticed := false

def Genuine (compiled : Keyed Formula.Compiled) : Prop :=
  ∀ name f, compiled.get? name = some f → Formula.compile f.raw = .ok f

theorem compile_raw {raw : String} {f : Formula.Compiled} (h : Formula.compile raw = .ok f) :
    Formula.compile f.raw = .ok f := by
  obtain ⟨-, -, -, -, hr⟩ := Formula.compile_eq_ok h
  rw [hr]
  exact h

theorem form?_eq_some {c : Column} {f : Formula.Compiled} (h : form? c = some f) :
    c.trimmedFormula? = some f.raw ∧ Formula.compile f.raw = .ok f ∧
      f.references c.name = false := by
  unfold form? outcome? at h
  cases hc : c.trimmedFormula? with
  | none => simp [hc] at h
  | some raw =>
    cases hr : Formula.compile raw with
    | error e => simp [hc, hr] at h
    | ok g =>
      cases hg : g.references c.name with
      | true => simp [hc, hr, hg] at h
      | false =>
        obtain rfl : g = f := by simpa [hc, hr, hg] using h
        obtain ⟨-, -, -, -, hraw⟩ := Formula.compile_eq_ok hr
        exact ⟨congrArg some hraw.symm, compile_raw hr, hg⟩

theorem build_genuine (options : Options) (columns : List Column) :
    Genuine (build options columns).compiled := by
  intro name f hf
  obtain ⟨c, -, -, hc⟩ := gather_get? form? hf
  exact (form?_eq_some hc).2.1

theorem compileCached_result {earlier : Keyed Formula.Compiled} (h : Genuine earlier)
    (name raw : String) : (compileCached earlier name raw).1 = Formula.compile raw := by
  cases hf : earlier.get? name with
  | none => simp only [compileCached, hf]
  | some f =>
    by_cases hr : f.raw = raw
    · have hf' : Formula.compile raw = .ok f := hr ▸ h name f hf
      simp only [compileCached, hf, hr, if_true, hf']
    · simp only [compileCached, hf, hr, if_false]

theorem addColumn_table {earlier : Keyed Formula.Compiled} (h : Genuine earlier) (t : Table)
    (c : Column) :
    (addColumn earlier t c).1 =
      { t with
        compiled := collect form? t.compiled c
        failures := collect failure? t.failures c
        order := t.order ++ (formulaName? c).toList
        formats := collect format? t.formats c } := by
  have hformat : t.addFormat c = { t with formats := collect format? t.formats c } := by
    unfold addFormat collect format?
    rcases c.numberFormat with _ | f
    · rfl
    · cases f <;> rfl
  unfold addColumn
  rw [hformat]
  cases hc : c.trimmedFormula? with
  | none => simp [collect, form?, failure?, outcome?, formulaName?, hc]
  | some raw =>
    have hr := compileCached_result h c.name raw
    rcases hcached : compileCached earlier c.name raw with ⟨e | f, notices⟩
    · have hcompile : Formula.compile raw = .error e := by rw [← hr, hcached]
      simp [addFormula, hcached, collect, form?, failure?, outcome?, formulaName?, hc, hcompile]
    · have hcompile : Formula.compile raw = .ok f := by rw [← hr, hcached]
      cases hf : f.references c.name <;>
        simp [addFormula, hcached, collect, form?, failure?, outcome?, formulaName?, hc, hcompile,
          hf]

theorem addColumns_table {earlier : Keyed Formula.Compiled} (h : Genuine earlier) (t : Table)
    (columns : List Column) :
    (addColumns earlier t columns).1 =
      { t with
        compiled := columns.foldl (collect form?) t.compiled
        failures := columns.foldl (collect failure?) t.failures
        order := t.order ++ columns.filterMap formulaName?
        formats := columns.foldl (collect format?) t.formats } := by
  induction columns generalizing t with
  | nil => simp [addColumns]
  | cons c columns ih =>
    have hc := addColumn_table h t c
    simp only [addColumns, ih, hc, List.foldl_cons, List.filterMap_cons]
    cases formulaName? c <;> simp

theorem foldl_addDisplay (t : Table) (columns : List Column) :
    columns.foldl addDisplay t =
      { t with displays := columns.foldl (collect displayOf?) t.displays } := by
  induction columns generalizing t with
  | nil => rfl
  | cons c columns ih =>
    rw [List.foldl_cons, ih]
    unfold addDisplay
    cases hd : displayOf? c <;> simp [collect, hd]

theorem prepare_ok {t : Table} (h : Genuine t.compiled) {entries : List ColumnEntry}
    {columns : List Column} (hc : entries.mapM readEntry = .ok columns) :
    (t.prepare entries).table = build t.options columns := by
  simp only [prepare, hc, foldl_addDisplay, addColumns_table h]
  rfl

theorem prepare_error (t : Table) {entries : List ColumnEntry} {e : PrepareError}
    (hc : entries.mapM readEntry = .error e) : (t.prepare entries).table = new t.options := by
  simp only [prepare, hc]

theorem prepare_refusal (t u : Table) (entries : List ColumnEntry) :
    (t.prepare entries).refusal = (u.prepare entries).refusal := by
  unfold prepare
  cases entries.mapM readEntry <;> rfl

theorem prepare_table_congr {t u : Table} (ht : Genuine t.compiled) (hu : Genuine u.compiled)
    (ho : t.options = u.options) (entries : List ColumnEntry) :
    (t.prepare entries).table = (u.prepare entries).table := by
  cases hc : entries.mapM readEntry with
  | error e => rw [prepare_error t hc, prepare_error u hc, ho]
  | ok columns => rw [prepare_ok ht hc, prepare_ok hu hc, ho]

/-- The table of some columns, with its notice given or not. -/
def Built (options : Options) (t : Table) : Prop :=
  ∃ columns noticed, t = { build options columns with noticed := noticed }

theorem built_build (options : Options) (columns : List Column) :
    Built options (build options columns) := ⟨columns, _, rfl⟩

theorem built_new (options : Options) : Built options (new options) := built_build options []

theorem Built.genuine {options : Options} {t : Table} (h : Built options t) :
    Genuine t.compiled := by
  obtain ⟨columns, noticed, rfl⟩ := h
  exact build_genuine options columns

theorem Built.options_eq {options : Options} {t : Table} (h : Built options t) :
    t.options = options := by
  obtain ⟨columns, noticed, rfl⟩ := h
  rfl

def columnsOf (entries : List ColumnEntry) : List Column :=
  match entries.mapM readEntry with
  | .ok columns => columns
  | .error _ => []

def Prepared (options : Options) (entries : List ColumnEntry) (t : Table) : Prop :=
  ∃ noticed, t = { build options (columnsOf entries) with noticed := noticed }

theorem Prepared.built {options : Options} {entries : List ColumnEntry} {t : Table}
    (h : Prepared options entries t) : Built options t := by
  obtain ⟨noticed, rfl⟩ := h
  exact ⟨columnsOf entries, noticed, rfl⟩

theorem prepared_new (options : Options) : Prepared options [] (new options) := ⟨false, rfl⟩

theorem prepare_table {t : Table} (h : Genuine t.compiled) (entries : List ColumnEntry) :
    (t.prepare entries).table = build t.options (columnsOf entries) := by
  cases hc : entries.mapM readEntry with
  | error e =>
    rw [prepare_error t hc, columnsOf, hc]
    rfl
  | ok columns => rw [prepare_ok h hc, columnsOf, hc]

theorem Built.prepared {options : Options} {t : Table} (h : Built options t)
    (entries : List ColumnEntry) : Prepared options entries (t.prepare entries).table := by
  rw [prepare_table h.genuine, h.options_eq]
  exact ⟨false, rfl⟩

theorem Prepared.takeNotice {options : Options} {entries : List ColumnEntry} {t : Table}
    (h : Prepared options entries t) (rowCount : Nat) :
    Prepared options entries (t.takeNotice rowCount).1 := by
  obtain ⟨noticed, rfl⟩ := h
  unfold Table.takeNotice
  split
  · exact ⟨true, rfl⟩
  · exact ⟨noticed, rfl⟩

theorem Prepared.next {options : Options} {entries : List ColumnEntry} {t : Table}
    (h : Prepared options entries t) (shower : Shower) (a : Action) :
    Prepared options (a.entries entries) (a.next shower t) := by
  cases a with
  | prepare more => exact h.built.prepared more
  | apply row enabled => exact h
  | applyAll rows picks => exact h.takeNotice picks.length
  | notify rowCount => exact h.takeNotice rowCount

theorem Prepared.after {options : Options} {entries : List ColumnEntry} {t : Table}
    (h : Prepared options entries t) (shower : Shower) (actions : List Action) :
    Prepared options (actions.foldl Action.entries entries) (t.after shower actions) := by
  induction actions generalizing entries t with
  | nil => exact h
  | cons a actions ih => exact ih (h.next shower a)

theorem prepared_after (shower : Shower) (options : Options) (actions : List Action) :
    Prepared options (lastEntries actions) ((new options).after shower actions) :=
  (prepared_new options).after shower actions

theorem Prepared.after_calls {options : Options} {entries : List ColumnEntry} {t : Table}
    (h : Prepared options entries t) (shower : Shower) {calls : List Action}
    (hc : ∀ a ∈ calls, a.isPrepare = false) : Prepared options entries (t.after shower calls) := by
  induction calls generalizing t with
  | nil => exact h
  | cons a calls ih =>
    obtain ⟨ha, hrest⟩ := List.forall_mem_cons.mp hc
    have hsame : a.entries entries = entries := by
      cases a with
      | prepare more => cases ha
      | _ => rfl
    exact ih (hsame ▸ h.next shower a) hrest

/-- What some actions make of a new table. -/
def Reachable (shower : Shower) (options : Options) (t : Table) : Prop :=
  ∃ actions, t = (new options).after shower actions

theorem Reachable.built {shower : Shower} {options : Options} {t : Table}
    (h : Reachable shower options t) : Built options t := by
  obtain ⟨actions, rfl⟩ := h
  exact (prepared_after shower options actions).built

/-- Whatever was done with a table before, a preparation leaves it as it leaves a new one. -/
theorem prepare_after (shower : Shower) (options : Options) (actions : List Action)
    (entries : List ColumnEntry) :
    (((new options).after shower actions).prepare entries).table =
        ((new options).prepare entries).table ∧
      (((new options).after shower actions).prepare entries).refusal =
        ((new options).prepare entries).refusal := by
  have hb := (prepared_after shower options actions).built
  exact ⟨prepare_table_congr hb.genuine (built_new options).genuine hb.options_eq entries,
    prepare_refusal _ _ entries⟩

end FormulaTable.Table
