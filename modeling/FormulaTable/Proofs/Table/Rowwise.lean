import FormulaTable.Proofs.Table.History
import Mathlib.Logic.Function.Iterate

/-!
# Rows of a pass

A pass visits rows in place, and a row may come more than once. Each visit looks at its own row and
at what the table knows of its columns, so a row ends as if it had been alone in the pass.
-/

namespace FormulaTable.Table

variable {shower : Shower} {t : Table} {rows : List Row} {picks : List Nat}

theorem computeColumn_noticed (shower : Shower) (t : Table) (given : Bool) (row : Row)
    (name : String) :
    computeColumn shower { t with noticed := given } row name =
      computeColumn shower t row name := rfl

theorem computeColumns_noticed (shower : Shower) (t : Table) (given : Bool) (row : Row)
    (names : List String) :
    computeColumns shower { t with noticed := given } row names =
      computeColumns shower t row names := by
  induction names generalizing row with
  | nil => rfl
  | cons name rest ih => simp only [computeColumns, computeColumn_noticed, ih]

theorem disableColumns_noticed (t : Table) (given : Bool) (row : Row) (names : List String) :
    disableColumns { t with noticed := given } row names = disableColumns t row names := by
  have htext : disabledText { t with noticed := given } = disabledText t := rfl
  induction names generalizing row with
  | nil => rfl
  | cons name rest ih =>
    rw [disableColumns, disableColumns]
    cases hf : t.failures.get? name with
    | some message => exact ih _
    | none =>
      simp only [htext]
      cases t.disabledText with
      | ok s => exact ih _
      | error e => rfl

theorem apply_noticed (shower : Shower) (t : Table) (given : Bool) (row : Row) (enabled : Bool) :
    apply shower { t with noticed := given } row enabled = apply shower t row enabled := by
  cases enabled with
  | true => simp only [apply, compute, computeColumns_noticed, if_true]
  | false => simp only [apply, disableColumns_noticed, Bool.false_eq_true, if_false]

def visited (shower : Shower) (t : Table) (enabled : Bool) (row : Row) : Row :=
  (t.apply shower row enabled).row

theorem visited_takeNotice (shower : Shower) (t : Table) (rowCount : Nat) (enabled : Bool) :
    visited shower (t.takeNotice rowCount).1 enabled = visited shower t enabled := by
  funext row
  unfold takeNotice
  split
  · exact congrArg Rendering.row (apply_noticed shower t true row enabled)
  · rfl

theorem visit_getElem? (shower : Shower) (t : Table) (enabled : Bool) (rows : List Row)
    (picks : List Nat) (i : Nat) :
    (visit shower t enabled rows picks).1[i]? =
      rows[i]?.map (visited shower t enabled)^[picks.count i] := by
  -- What is left of the pass starts from the row as the first visit leaves it.
  induction picks generalizing rows with
  | nil => simp [visit]
  | cons j rest ih =>
    rw [visit]
    cases hj : rows[j]? with
    | none =>
      by_cases hij : j = i
      · subst hij
        simp [ih, hj]
      · rw [ih, List.count_cons_of_ne hij]
    | some row =>
      have hrest := ih (rows.set j (visited shower t enabled row))
      by_cases hij : j = i
      · subst hij
        have hlt : j < rows.length := (List.getElem?_eq_some_iff.mp hj).1
        rw [List.getElem?_set_self hlt] at hrest
        rw [hj, List.count_cons_self]
        exact hrest
      · rw [List.getElem?_set_ne hij] at hrest
        rw [List.count_cons_of_ne hij]
        exact hrest

theorem applyAll_getElem? (shower : Shower) (t : Table) (rows : List Row) (picks : List Nat)
    (i : Nat) :
    (t.applyAll shower rows picks).rows[i]? =
      rows[i]?.map (visited shower t (picks.length ≤ t.options.rowLimit))^[picks.count i] := by
  rw [applyAll, visit_getElem?, visited_takeNotice]

/-- A row ends a pass as its own visits leave it, one after the other, whatever the other rows hold
and whichever visits come in between. So the order of the visits does not matter, and a row that is
not visited stays as it is. -/
theorem applyAll_rowwise (shower : Shower) (t : Table) (rows : List Row) (picks : List Nat) :
    (∀ i, (t.applyAll shower rows picks).rows[i]? =
      rows[i]?.map (fun row =>
        (fun r => (t.apply shower r (picks.length ≤ t.options.rowLimit)).row)^[picks.count i]
          row)) ∧
    (∀ others, picks.Perm others →
      (t.applyAll shower rows others).rows = (t.applyAll shower rows picks).rows ∧
        (t.applyAll shower rows others).evaluated = (t.applyAll shower rows picks).evaluated) ∧
    (∀ i, i ∉ picks → (t.applyAll shower rows picks).rows[i]? = rows[i]?) ∧
    ∀ (rows' : List Row) (picks' : List Nat) (i j : Nat), rows[i]? = rows'[j]? →
      picks.count i = picks'.count j →
      (picks.length ≤ t.options.rowLimit ↔ picks'.length ≤ t.options.rowLimit) →
      (t.applyAll shower rows picks).rows[i]? = (t.applyAll shower rows' picks').rows[j]? := by
  refine ⟨applyAll_getElem? shower t rows picks, ?_, ?_, ?_⟩
  · intro others hp
    constructor
    · apply List.ext_getElem?
      intro i
      rw [applyAll_getElem?, applyAll_getElem?, hp.count_eq, hp.length_eq]
    · simp only [applyAll, hp.length_eq]
  · intro i hi
    rw [applyAll_getElem?, List.count_eq_zero_of_not_mem hi]
    simp
  · intro rows' picks' i j hrow hcount hlimit
    rw [applyAll_getElem?, applyAll_getElem?, hrow, hcount, decide_eq_decide.mpr hlimit]

theorem applyAll_rowwise_mutual :
    let first : Column := ⟨"A", .formula, some "\x7bB\x7d + 1", none, none, none⟩
    let second : Column := ⟨"B", .formula, some "\x7bA\x7d + 1", none, none, none⟩
    let t := ((new .standard).prepare [.column first, .column second]).table
    let rows : List Row := [.empty, .empty, .empty]
    let final := (t.applyAll standardShower rows [0, 1, 0]).rows
    ((final[0]?.bind (·.get? "B")).bind fun c => (Schema.readText c).toOption) = some "4" ∧
      (t.applyAll standardShower rows [1, 0, 0]).rows = final ∧ final[2]? = rows[2]? ∧
      (t.applyAll standardShower [.empty, .empty] [1, 1]).rows[1]? = final[0]? := by
  intro first second t rows final
  have hp : [0, 1, 0].Perm [1, 0, 0] := .swap 1 0 [0]
  obtain ⟨-, hperm, hkept, halone⟩ := applyAll_rowwise standardShower t rows [0, 1, 0]
  refine ⟨by decide +kernel, (hperm _ hp).1, hkept 2 (by decide), ?_⟩
  exact (halone [.empty, .empty] [1, 1] 0 1 rfl rfl (by decide +kernel)).symm

end FormulaTable.Table
