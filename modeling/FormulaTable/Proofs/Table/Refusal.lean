import FormulaTable.Journal.Record
import FormulaTable.Proofs.Formula.Rejection
import FormulaTable.Proofs.Table.ColumnOrder
import FormulaTable.Proofs.Table.LimitNotice

/-!
# Refused preparations

A preparation is refused for the first entry that is no column, before any formula is compiled, and
leaves a table without columns. Where all entries are columns nothing is in the way: what is wrong
with a formula is of a known kind, and what is reported can be put into a record.
-/

namespace FormulaTable

def Journal.Notice.Fits (n : Journal.Notice) : Prop :=
  ∀ p ∈ n.data, Journal.Record.isExtraKey p.1 = true ∧ p.1 ≠ "asctime"

namespace Table
open Formula (compile)

variable {shower : Shower} {t : Table}

theorem mapM_readEntry_eq_error {entries : List ColumnEntry} {e : PrepareError} :
    entries.mapM readEntry = .error e ↔
      ∃ valid entry rest, entries = valid ++ entry :: rest ∧
        (∀ x ∈ valid, ∃ c, readEntry x = .ok c) ∧ readEntry entry = .error e := by
  constructor
  · intro h
    induction entries with
    | nil => cases h
    | cons entry entries ih =>
      rw [List.mapM_cons] at h
      rcases Formula.bind_eq_error h with hentry | ⟨c, hc, h⟩
      · exact ⟨[], entry, entries, rfl, List.forall_mem_nil _, hentry⟩
      · rcases Formula.bind_eq_error h with hrest | ⟨columns, -, h⟩
        · obtain ⟨valid, other, rest, rfl, hvalid, hother⟩ := ih hrest
          exact ⟨entry :: valid, other, rest, rfl, List.forall_mem_cons.mpr ⟨⟨c, hc⟩, hvalid⟩,
            hother⟩
        · cases h
  · rintro ⟨valid, entry, rest, rfl, hvalid, hentry⟩
    induction valid with
    | nil =>
      rw [List.nil_append, List.mapM_cons, hentry]
      rfl
    | cons x valid ih =>
      obtain ⟨⟨c, hc⟩, hvalid⟩ := List.forall_mem_cons.mp hvalid
      rw [List.cons_append, List.mapM_cons, hc, ih hvalid]
      rfl

theorem prepare_refusal_eq_some {entries : List ColumnEntry} {e : PrepareError} :
    (t.prepare entries).refusal = some e ↔ entries.mapM readEntry = .error e := by
  cases hread : entries.mapM readEntry with
  | error e' => simp [prepare, hread]
  | ok columns => simp [prepare, hread]

theorem prepare_nil (t : Table) : (t.prepare []).table = new t.options := rfl

theorem apply_new (shower : Shower) (options : Options) (row : Row) (enabled : Bool) :
    (new options).apply shower row enabled = ⟨row, [], none⟩ := by
  cases enabled <;> rfl

theorem after_new (options : Options) {calls : List Action}
    (hc : ∀ a ∈ calls, a.isPrepare = false) : (new options).after shower calls = new options :=
  (limitNotices_quiet hc fun _ _ => Action.isDue_eq_false (.inl rfl)).2

theorem visit_new (options : Options) (enabled : Bool) (rows : List Row) (picks : List Nat) :
    visit shower (new options) enabled rows picks = (rows, []) := by
  induction picks with
  | nil => rfl
  | cons i rest ih =>
    rw [visit]
    cases hrow : rows[i]? with
    | none => exact ih
    | some row =>
      have hset : rows.set i row = rows := by
        obtain ⟨hi, rfl⟩ := List.getElem?_eq_some_iff.mp hrow
        exact List.set_getElem_self hi
      simp only [apply_new, hset, ih, List.nil_append]

theorem applyAll_new (options : Options) (rows : List Row) (picks : List Nat) :
    ((new options).applyAll shower rows picks).rows = rows := by
  have hquiet : (new options).isNoticeDue picks.length = false := by simp [isNoticeDue, new]
  simp only [applyAll, takeNotice, hquiet, Bool.false_eq_true, if_false, visit_new]

inductive Report : Journal.Notice → Prop
  | compiled (f : Formula.Compiled) : Report (Journal.compiled f)
  | compileFailed (column : String) {raw : String} {e : Formula.CompileError}
      (h : compile raw = .error e) : Report (compileFailed column e)
  | readsItself (column : String) : Report (readsItself column)

theorem Report.fits {n : Journal.Notice} (h : Report n) : n.Fits := by
  unfold Journal.Notice.Fits
  cases h with
  | compiled f =>
    simp only [Journal.compiled, List.forall_mem_cons]
    decide +kernel
  | compileFailed column h =>
    simp only [Table.compileFailed, List.forall_mem_cons]
    decide +kernel
  | readsItself column =>
    simp only [Table.readsItself, List.forall_mem_cons]
    decide +kernel

theorem compileCached_cases (earlier : Keyed Formula.Compiled) (name raw : String) :
    (∃ f, compileCached earlier name raw = (.ok f, [])) ∨
      compileCached earlier name raw = (compile raw, Journal.ofCompilation (compile raw)) := by
  unfold compileCached
  cases earlier.get? name with
  | none => exact .inr rfl
  | some f =>
    by_cases hraw : f.raw = raw
    · exact .inl ⟨f, by simp only [hraw, if_true]⟩
    · exact .inr (by simp only [hraw, if_false])

theorem report_of_compileCached {earlier : Keyed Formula.Compiled} {name raw : String}
    {n : Journal.Notice} (h : n ∈ (compileCached earlier name raw).2) : Report n := by
  rcases compileCached_cases earlier name raw with ⟨f, hkept⟩ | hanew
  · rw [hkept] at h
    cases h
  · rw [hanew] at h
    cases hc : compile raw with
    | error e =>
      rw [hc] at h
      cases h
    | ok f =>
      rw [hc] at h
      obtain rfl := List.mem_singleton.mp h
      exact .compiled f

theorem compileCached_error {earlier : Keyed Formula.Compiled} {name raw : String}
    {e : Formula.CompileError} (h : (compileCached earlier name raw).1 = .error e) :
    compile raw = .error e := by
  rcases compileCached_cases earlier name raw with ⟨f, hkept⟩ | hanew
  · rw [hkept] at h
    cases h
  · simpa only [hanew] using h

theorem report_of_addFormula {earlier : Keyed Formula.Compiled} {name raw : String}
    {n : Journal.Notice} (h : n ∈ (addFormula earlier t name raw).2) : Report n := by
  have hcached := @report_of_compileCached earlier name raw n
  have herror := @compileCached_error earlier name raw
  unfold addFormula at h
  generalize compileCached earlier name raw = r at h hcached herror
  obtain ⟨e | f, notices⟩ := r
  · rcases List.mem_append.mp h with h | h
    · exact hcached h
    · obtain rfl := List.mem_singleton.mp h
      exact .compileFailed name (herror rfl)
  · dsimp only at h
    split at h
    · rcases List.mem_append.mp h with h | h
      · exact hcached h
      · obtain rfl := List.mem_singleton.mp h
        exact .readsItself name
    · exact hcached h

theorem report_of_addColumns {earlier : Keyed Formula.Compiled} {columns : List Column}
    {n : Journal.Notice} (h : n ∈ (addColumns earlier t columns).2) : Report n := by
  induction columns generalizing t with
  | nil => cases h
  | cons c rest ih =>
    rcases List.mem_append.mp h with h | h
    · split at h
      · cases h
      · exact report_of_addFormula h
    · exact ih h

theorem report_of_prepare {entries : List ColumnEntry} {n : Journal.Notice}
    (h : n ∈ (t.prepare entries).notices) : Report n := by
  unfold prepare at h
  dsimp only at h
  split at h
  · cases h
  · exact report_of_addColumns h

/-- A preparation is refused for its first invalid entry and for nothing else, and a refused one
leaves what a preparation for no columns leaves, so that until the next one rows stay as they are.
No text of a formula fails in a way that is not of the kinds of faults, and all that is reported of
the entries can be recorded. -/
theorem prepare_refused (shower : Shower) (t : Table) (entries : List ColumnEntry) :
    (∀ e, (t.prepare entries).refusal = some e ↔
      ∃ valid entry rest, entries = valid ++ entry :: rest ∧
        (∀ x ∈ valid, ∃ c, readEntry x = .ok c) ∧ readEntry entry = .error e) ∧
      (∀ e, (t.prepare entries).refusal = some e →
        (t.prepare entries).table = (t.prepare []).table ∧
          (t.prepare entries).table = new t.options ∧ (t.prepare entries).notices = [] ∧
          ∀ calls, (∀ a ∈ calls, a.isPrepare = false) → ∀ u,
            u = (t.prepare entries).table.after shower calls →
            u = new t.options ∧
              (∀ row enabled, u.apply shower row enabled = ⟨row, [], none⟩) ∧
              ∀ rows picks, (u.applyAll shower rows picks).rows = rows) ∧
      (∀ raw e, compile raw = .error e → ∃ k, e.kind? = some k) ∧
      ∀ n ∈ (t.prepare entries).notices, n.Fits := by
  refine ⟨?_, ?_, fun raw e => Formula.compile_error, fun n hn => (report_of_prepare hn).fits⟩
  · intro e
    rw [prepare_refusal_eq_some, mapM_readEntry_eq_error]
  · intro e he
    have hread := prepare_refusal_eq_some.mp he
    have htable : (t.prepare entries).table = new t.options := prepare_error t hread
    refine ⟨htable.trans (prepare_nil t).symm, htable, by simp only [prepare, hread], ?_⟩
    rintro calls hc u rfl
    rw [htable, after_new t.options hc]
    exact ⟨rfl, apply_new shower t.options, applyAll_new t.options⟩

example :
    ((new .standard).prepare [.fields [("name", .text "A"), ("formula", .text "1 +* 2")],
      .fields [("name", .text "F"), ("formula_format", .text "bogus")], .unfit]).refusal =
      some (.invalidColumn "F" [⟨some "formula_format", .refused⟩]) := by
  decide +kernel

end Table
end FormulaTable
