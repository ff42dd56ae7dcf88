import FormulaTable.Proofs.Table.Recompute

/-!
# The notice of the row limit

Between two preparations a table with formula columns says once that it is too long: at the first
question or pass for more rows than its limit. What comes before that one takes nothing away from
it, and nothing after it says it again.
-/

namespace FormulaTable.Table

variable {shower : Shower} {t : Table}

def Action.exceeds (limit : Nat) : Action → Bool
  | applyAll _ picks => limit < picks.length
  | notify rowCount => limit < rowCount
  | _ => false

def Action.reports (shower : Shower) (t : Table) : Action → List Journal.Notice
  | prepare entries => (t.prepare entries).notices
  | apply row enabled => (t.apply shower row enabled).notices
  | applyAll rows picks => (t.applyAll shower rows picks).notices
  | notify _ => []

def Action.answer (t : Table) : Action → Bool
  | notify rowCount => (t.takeNotice rowCount).2
  | _ => false

/-- How often the action says that the table is too long: in a report at the level of information,
or as the answer to the question. -/
def Action.limitNotices (shower : Shower) (t : Table) (a : Action) : Nat :=
  (a.reports shower t).countP (·.level == .info) + (a.answer t).toNat

def limitNotices (shower : Shower) : Table → List Action → List Nat
  | _, [] => []
  | t, a :: rest => a.limitNotices shower t :: limitNotices shower (a.next shower t) rest

theorem limitNotices_append (shower : Shower) (t : Table) (calls more : List Action) :
    t.limitNotices shower (calls ++ more) =
      t.limitNotices shower calls ++ (t.after shower calls).limitNotices shower more := by
  induction calls generalizing t with
  | nil => rfl
  | cons a calls ih => exact congrArg (a.limitNotices shower t :: ·) (ih _)

inductive RowNotice : Journal.Notice → Prop
  | displayFailed (column : String) : RowNotice (displayFailed column)
  | evaluationFailed (f : Formula.Compiled) (e : Formula.EvalError) :
      RowNotice (Journal.evaluationFailed f e)

theorem RowNotice.level {n : Journal.Notice} (h : RowNotice n) : n.level = .debug := by
  cases h <;> rfl

theorem rowNotice_of_evaluateOn {f : Formula.Compiled} {row : Row} {n : Journal.Notice}
    (h : n ∈ (evaluateOn shower t f row).2) : RowNotice n := by
  rcases List.mem_append.mp h with h | h
  · obtain ⟨column, -, rfl⟩ := List.mem_map.mp h
    exact .displayFailed column
  · unfold Journal.ofEvaluation at h
    split at h
    · cases h
    · next e _ =>
      obtain rfl := List.mem_singleton.mp h
      exact .evaluationFailed f e

theorem rowNotice_of_computeColumn {name : String} {row : Row} {n : Journal.Notice}
    (h : n ∈ (computeColumn shower t row name).2) : RowNotice n := by
  unfold computeColumn at h
  split at h
  · cases h
  · split at h
    · cases h
    · next f _ =>
      have hnotice := @rowNotice_of_evaluateOn shower t f row n
      split at h <;> next hresult => exact hnotice (by rw [hresult]; exact h)

theorem rowNotice_of_computeColumns {names : List String} {row : Row} {n : Journal.Notice}
    (h : n ∈ (computeColumns shower t row names).2) : RowNotice n := by
  induction names generalizing row with
  | nil => cases h
  | cons name rest ih =>
    rcases List.mem_append.mp h with h | h
    · exact rowNotice_of_computeColumn h
    · exact ih h

theorem rowNotice_of_apply {row : Row} {enabled : Bool} {n : Journal.Notice}
    (h : n ∈ (t.apply shower row enabled).notices) : RowNotice n := by
  cases enabled with
  | true => exact rowNotice_of_computeColumns h
  | false => cases h

theorem rowNotice_of_visit {enabled : Bool} {rows : List Row} {picks : List Nat}
    {n : Journal.Notice} (h : n ∈ (visit shower t enabled rows picks).2) : RowNotice n := by
  induction picks generalizing rows with
  | nil => cases h
  | cons i rest ih =>
    rw [visit] at h
    split at h
    · exact ih h
    · rcases List.mem_append.mp h with h | h
      · exact rowNotice_of_apply h
      · exact ih h

theorem countP_info_eq_zero {notices : List Journal.Notice} (h : ∀ n ∈ notices, RowNotice n) :
    notices.countP (·.level == .info) = 0 := by
  rw [List.countP_eq_zero]
  intro n hn
  rw [(h n hn).level]
  decide

theorem takeNotice_table (t : Table) (rowCount : Nat) :
    (t.takeNotice rowCount).1 =
      if t.isNoticeDue rowCount then { t with noticed := true } else t := by
  unfold takeNotice
  split <;> rfl

theorem takeNotice_answer (t : Table) (rowCount : Nat) :
    (t.takeNotice rowCount).2 = t.isNoticeDue rowCount := by
  unfold takeNotice
  cases t.isNoticeDue rowCount <;> rfl

theorem countP_info_applyAll (shower : Shower) (t : Table) (rows : List Row) (picks : List Nat) :
    (t.applyAll shower rows picks).notices.countP (·.level == .info) =
      (t.isNoticeDue picks.length).toNat := by
  have hvisit (u : Table) (enabled : Bool) :
      (visit shower u enabled rows picks).2.countP (·.level == .info) = 0 :=
    countP_info_eq_zero fun _ => rowNotice_of_visit
  simp only [applyAll, takeNotice_answer, List.countP_append, hvisit, Nat.add_zero]
  cases t.isNoticeDue picks.length <;> simp [limitExceeded]

def Action.isDue (t : Table) (a : Action) : Bool :=
  a.exceeds t.options.rowLimit && !t.order.isEmpty && !t.noticed

theorem Action.limitNotices_eq {a : Action} (ha : a.isPrepare = false) (shower : Shower)
    (t : Table) : a.limitNotices shower t = (a.isDue t).toNat := by
  cases a with
  | prepare entries => cases ha
  | apply row enabled =>
    have hzero : (t.apply shower row enabled).notices.countP (·.level == .info) = 0 :=
      countP_info_eq_zero fun _ => rowNotice_of_apply
    simp [Action.limitNotices, reports, answer, isDue, exceeds, hzero]
  | applyAll rows picks =>
    simp [Action.limitNotices, reports, answer, isDue, exceeds, countP_info_applyAll, isNoticeDue]
  | notify rowCount =>
    simp [Action.limitNotices, reports, answer, isDue, exceeds, takeNotice_answer, isNoticeDue]

theorem Action.next_eq {a : Action} (ha : a.isPrepare = false) (shower : Shower) (t : Table) :
    a.next shower t = if a.isDue t then { t with noticed := true } else t := by
  cases a with
  | prepare entries => cases ha
  | apply row enabled => rfl
  | applyAll rows picks => exact takeNotice_table t picks.length
  | notify rowCount => exact takeNotice_table t rowCount

theorem Action.isDue_eq_false {t : Table} {a : Action}
    (h : t.order = [] ∨ t.noticed = true ∨ a.exceeds t.options.rowLimit = false) :
    a.isDue t = false := by
  rcases h with h | h | h <;> simp [isDue, h]

theorem limitNotices_quiet {calls : List Action} (hc : ∀ a ∈ calls, a.isPrepare = false)
    (hq : ∀ a ∈ calls, a.isDue t = false) :
    t.limitNotices shower calls = List.replicate calls.length 0 ∧ t.after shower calls = t := by
  induction calls with
  | nil => exact ⟨rfl, rfl⟩
  | cons a calls ih =>
    obtain ⟨ha, hrest⟩ := List.forall_mem_cons.mp hc
    obtain ⟨hnot, hquiet⟩ := List.forall_mem_cons.mp hq
    obtain ⟨hnone, hsame⟩ := ih hrest hquiet
    have hnext : a.next shower t = t := by simp [Action.next_eq ha, hnot]
    have hgiven : a.limitNotices shower t = 0 := by simp [Action.limitNotices_eq ha, hnot]
    constructor
    · rw [limitNotices, hgiven, hnext, hnone, List.length_cons, List.replicate_succ]
    · rw [after, List.foldl_cons, hnext]
      exact hsame

theorem limitNotices_first {calm rest : List Action} {first : Action}
    (hc : ∀ a ∈ calm ++ first :: rest, a.isPrepare = false)
    (hcalm : ∀ a ∈ calm, a.isDue t = false) (hfirst : first.isDue t = true) :
    t.limitNotices shower (calm ++ first :: rest) =
      List.replicate calm.length 0 ++ 1 :: List.replicate rest.length 0 := by
  obtain ⟨hbefore, hc⟩ := List.forall_mem_append.mp hc
  obtain ⟨hhead, hrest⟩ := List.forall_mem_cons.mp hc
  obtain ⟨hnone, hsame⟩ := @limitNotices_quiet shower t calm hbefore hcalm
  have hnext : first.next shower t = { t with noticed := true } := by
    simp [Action.next_eq hhead, hfirst]
  have hgiven : first.limitNotices shower t = 1 := by
    simp [Action.limitNotices_eq hhead, hfirst]
  -- Once it is given, nothing is due.
  have hlater := @limitNotices_quiet shower { t with noticed := true } rest hrest
    fun a _ => Action.isDue_eq_false (.inr (.inl rfl))
  rw [limitNotices_append, hnone, hsame, limitNotices, hgiven, hnext, hlater.1]

/-- From one preparation to the next, a table with formula columns gives one notice, by the first
action that is about more rows than its limit; if there is none, or no formula column, it gives no
notice. An action within the limit takes nothing away from it in any state. -/
theorem limitNotices_once {earlier : List Action} {entries : List ColumnEntry} {options : Options}
    (ht : t = (new options).after shower (earlier ++ [.prepare entries])) {calls : List Action}
    (hc : ∀ a ∈ calls, a.isPrepare = false) :
    (t.order ≠ [] → ∀ calm first rest, calls = calm ++ first :: rest →
      (∀ a ∈ calm, a.exceeds options.rowLimit = false) →
      first.exceeds options.rowLimit = true →
      t.limitNotices shower calls =
        List.replicate calm.length 0 ++ 1 :: List.replicate rest.length 0) ∧
      (t.order = [] ∨ (∀ a ∈ calls, a.exceeds options.rowLimit = false) →
        t.limitNotices shower calls = List.replicate calls.length 0) ∧
      ∀ a ∈ calls, a.exceeds options.rowLimit = false → ∀ u : Table, u.options = options →
        a.next shower u = u ∧ a.limitNotices shower u = 0 := by
  have hprepared : t = build options (columnsOf entries) := by
    have hb := (prepared_after shower options earlier).built
    have htable := prepare_table hb.genuine entries
    rw [hb.options_eq] at htable
    rw [ht, after_append]
    exact htable
  have ho : t.options = options := by rw [hprepared]; rfl
  have hnoticed : t.noticed = false := by rw [hprepared]; rfl
  refine ⟨?_, ?_, ?_⟩
  · rintro horder calm first rest rfl hcalm hfirst
    refine limitNotices_first hc (fun a ha => ?_) ?_
    · exact Action.isDue_eq_false (.inr (.inr (ho ▸ hcalm a ha)))
    · simp [Action.isDue, ho, hfirst, hnoticed, horder]
  · intro h
    refine (limitNotices_quiet hc fun a ha => ?_).1
    rcases h with horder | hwithin
    · exact Action.isDue_eq_false (.inl horder)
    · exact Action.isDue_eq_false (.inr (.inr (ho ▸ hwithin a ha)))
  · intro a ha hwithin u hu
    have hdue : a.isDue u = false := Action.isDue_eq_false (.inr (.inr (hu ▸ hwithin)))
    constructor
    · simp [Action.next_eq (hc a ha), hdue]
    · simp [Action.limitNotices_eq (hc a ha), hdue]

theorem limitNotices_once_sale :
    let t := (new ⟨2, "#ERR", "tip "⟩).after standardShower
      ([.notify 7] ++ [.prepare saleColumns])
    t.limitNotices standardShower
      [.notify 2, .apply .empty true, .applyAll [.empty] [0, 0, 0], .notify 7] = [0, 0, 1, 0] := by
  intro t
  have hc : ∀ a ∈ [Action.notify 2, .apply .empty true, .applyAll [.empty] [0, 0, 0], .notify 7],
      a.isPrepare = false := by
    simp [Action.isPrepare]
  have hcalm : ∀ a ∈ [Action.notify 2, .apply .empty true], a.exceeds 2 = false := by
    simp [Action.exceeds]
  have horder : t.order ≠ [] := by decide +kernel
  exact (limitNotices_once rfl hc).1 horder _ _ [.notify 7] rfl hcalm (by decide)

end FormulaTable.Table
