import FormulaTable.Proofs.Table.History

/-!
# Computing a row again

A formula column writes its cell and its tooltip in place, while later columns read what stands in
the row. If every formula reads only what no column writes at its turn or later, the computed row
depends on nothing that an earlier pass left there.
-/

namespace FormulaTable

namespace Keyed

variable {α : Type} {a b c : Keyed α} {keys : List String}

/-- The two hold the same under every key outside `keys`. -/
def AgreeOff (keys : List String) (a b : Keyed α) : Prop :=
  ∀ key, key ∉ keys → a.get? key = b.get? key

theorem AgreeOff.refl (keys : List String) (a : Keyed α) : AgreeOff keys a a := fun _ _ => rfl

theorem AgreeOff.symm (h : AgreeOff keys a b) : AgreeOff keys b a := fun key hk => (h key hk).symm

theorem AgreeOff.trans (h₁ : AgreeOff keys a b) (h₂ : AgreeOff keys b c) : AgreeOff keys a c :=
  fun key hk => (h₁ key hk).trans (h₂ key hk)

theorem AgreeOff.mono {more : List String} (h : AgreeOff keys a b) (hk : keys ⊆ more) :
    AgreeOff more a b := fun key hm => h key fun hkey => hm (hk hkey)

theorem AgreeOff.get? (h : AgreeOff [] a b) (key : String) : a.get? key = b.get? key :=
  h key List.not_mem_nil

theorem AgreeOff.set {key : String} (h : AgreeOff (key :: keys) a b) (v : α) :
    AgreeOff keys (a.set key v) (b.set key v) := by
  intro other ho
  by_cases he : other = key
  · rw [he, get?_set_self, get?_set_self]
  · rw [get?_set_of_ne he, get?_set_of_ne he]
    exact h other (by simp [he, ho])

theorem agreeOff_set {key : String} (hk : key ∈ keys) (a : Keyed α) (v : α) :
    AgreeOff keys a (a.set key v) := by
  intro other ho
  have hne : other ≠ key := fun he => ho (he ▸ hk)
  rw [get?_set_of_ne hne]

end Keyed

namespace Table
open Keyed (AgreeOff)

variable {shower : Shower} {t : Table} {names : List String} {row first second : Row}

def ownKeys (t : Table) (names : List String) : List String :=
  names.flatMap fun name => [name, t.tooltipKey name]

/-- No formula reads what is written at its own turn or later. -/
def ReadsBackward (t : Table) : List String → Prop
  | [] => True
  | name :: rest =>
    (∀ d ∈ t.dependencies name, d ∉ t.ownKeys (name :: rest)) ∧ t.ReadsBackward rest

instance decidableReadsBackward (t : Table) :
    (names : List String) → Decidable (t.ReadsBackward names)
  | [] => isTrue trivial
  | name :: rest =>
    have := decidableReadsBackward t rest
    inferInstanceAs (Decidable
      ((∀ d ∈ t.dependencies name, d ∉ t.ownKeys (name :: rest)) ∧ t.ReadsBackward rest))

theorem ownKeys_cons (t : Table) (name : String) (rest : List String) :
    t.ownKeys (name :: rest) = name :: t.tooltipKey name :: t.ownKeys rest := rfl

/-- The cell and the tooltip that a column gets; a column without a formula gets none. -/
def verdict (shower : Shower) (t : Table) (row : Row) (name : String) : Option (String × String) :=
  match t.failures.get? name with
  | some message => some (t.options.errorValue, parseFailedText message)
  | none =>
    (t.compiled.get? name).map fun f =>
      match (evaluateOn shower t f row).1 with
      | .error e => (t.options.errorValue, errorText e)
      | .ok v => (cellText (t.formats.get? name) v, "")

theorem computeColumn_row (shower : Shower) (t : Table) (row : Row) (name : String) :
    (computeColumn shower t row name).1 =
      (t.verdict shower row name).elim row fun p => t.write row name p.1 p.2 := by
  unfold computeColumn verdict
  cases t.failures.get? name with
  | some message => rfl
  | none =>
    cases t.compiled.get? name with
    | none => rfl
    | some f =>
      rcases h : evaluateOn shower t f row with ⟨e | v, notices⟩ <;> simp [h]

theorem verdict_congr (hg : Genuine t.compiled) {name : String}
    (h : ∀ d ∈ t.dependencies name, first.get? d = second.get? d) :
    t.verdict shower first name = t.verdict shower second name := by
  unfold verdict
  cases t.failures.get? name with
  | some message => rfl
  | none =>
    cases hf : t.compiled.get? name with
    | none => rfl
    | some f =>
      have hseen : ∀ d ∈ f.dependencies,
          some (seenField shower t first d) = some (seenField shower t second d) := by
        intro d hd
        have hrow : first.get? d = second.get? d := h d (by simpa [dependencies, hf] using hd)
        simp [seenField, rawField, hrow]
      simp [evaluateOn, Formula.evaluate_congr (hg name f hf) hseen]

theorem isSome_verdict {name : String} (h : t.isFormulaColumn name = true) (shower : Shower)
    (row : Row) :
    (t.verdict shower row name).isSome = true := by
  unfold verdict
  cases hf : t.failures.get? name with
  | some message => rfl
  | none => simpa [isFormulaColumn, Keyed.contains, hf] using h

theorem agreeOff_computeColumn {name : String} {rest : List String} :
    AgreeOff (t.ownKeys (name :: rest)) row (computeColumn shower t row name).1 := by
  rw [computeColumn_row]
  cases t.verdict shower row name with
  | none => exact .refl _ _
  | some p =>
    exact (Keyed.agreeOff_set (by simp [ownKeys_cons]) row _).trans
      (Keyed.agreeOff_set (by simp [ownKeys_cons]) _ _)

theorem computeColumn_agreeOff (hg : Genuine t.compiled) {name : String} {rest : List String}
    (hn : t.isFormulaColumn name = true)
    (hd : ∀ d ∈ t.dependencies name, d ∉ t.ownKeys (name :: rest))
    (h : AgreeOff (t.ownKeys (name :: rest)) first second) :
    AgreeOff (t.ownKeys rest) (computeColumn shower t first name).1
      (computeColumn shower t second name).1 := by
  have hv : t.verdict shower first name = t.verdict shower second name :=
    verdict_congr hg fun d hdep => h d (hd d hdep)
  obtain ⟨p, hp⟩ := Option.isSome_iff_exists.mp (isSome_verdict hn shower second)
  rw [computeColumn_row, computeColumn_row, hv, hp]
  exact AgreeOff.set (AgreeOff.set (h.mono (by simp [ownKeys_cons])) _) _

theorem computeColumns_cons (shower : Shower) (t : Table) (row : Row) (name : String)
    (rest : List String) :
    (computeColumns shower t row (name :: rest)).1 =
      (computeColumns shower t (computeColumn shower t row name).1 rest).1 := rfl

theorem ownKeys_subset_cons (t : Table) (name : String) (rest : List String) :
    t.ownKeys rest ⊆ t.ownKeys (name :: rest) := by
  intro key hk
  simp [ownKeys_cons, hk]

theorem agreeOff_computeColumns (shower : Shower) (t : Table) (row : Row) (names : List String) :
    AgreeOff (t.ownKeys names) row (computeColumns shower t row names).1 := by
  induction names generalizing row with
  | nil => exact .refl _ _
  | cons name rest ih =>
    rw [computeColumns_cons]
    exact agreeOff_computeColumn.trans ((ih _).mono (ownKeys_subset_cons t name rest))

theorem computeColumns_agreeOff (hg : Genuine t.compiled)
    (hn : ∀ name ∈ names, t.isFormulaColumn name = true) (hr : t.ReadsBackward names)
    (h : AgreeOff (t.ownKeys names) first second) :
    AgreeOff [] (computeColumns shower t first names).1
      (computeColumns shower t second names).1 := by
  -- The keys that still may differ are those of the columns to come.
  induction names generalizing first second with
  | nil => exact h
  | cons name rest ih =>
    obtain ⟨hd, hr⟩ := hr
    rw [computeColumns_cons, computeColumns_cons]
    apply ih (fun other ho => hn other (List.mem_cons_of_mem _ ho)) hr
    exact computeColumn_agreeOff hg (hn name List.mem_cons_self) hd h

/-- The keys of a row that the given columns write where nothing is computed: only a column that
failed to compile writes its cell. -/
def disabledKeys (t : Table) (names : List String) : List String :=
  names.flatMap fun name =>
    if t.failures.contains name then [name, t.tooltipKey name] else [t.tooltipKey name]

theorem disabledKeys_cons (t : Table) (name : String) (rest : List String) :
    t.disabledKeys (name :: rest) =
      (if t.failures.contains name then [name, t.tooltipKey name] else [t.tooltipKey name]) ++
        t.disabledKeys rest := rfl

theorem disabledKeys_subset_ownKeys (t : Table) (names : List String) :
    t.disabledKeys names ⊆ t.ownKeys names := by
  intro key hk
  obtain ⟨name, hn, hkey⟩ := List.mem_flatMap.mp hk
  refine List.mem_flatMap.mpr ⟨name, hn, ?_⟩
  split at hkey
  · exact hkey
  · exact List.mem_cons_of_mem name hkey

theorem disabledColumns_agreeOff (t : Table) (row : Row) (names : List String) :
    AgreeOff (t.disabledKeys names) row (disableColumns t row names).1 := by
  induction names generalizing row with
  | nil => exact .refl _ _
  | cons name rest ih =>
    have htip : t.tooltipKey name ∈ t.disabledKeys (name :: rest) := by
      rw [disabledKeys_cons]
      split <;> simp
    have htail : t.disabledKeys rest ⊆ t.disabledKeys (name :: rest) := by
      rw [disabledKeys_cons]
      exact List.subset_append_right _ _
    cases hf : t.failures.get? name with
    | some message =>
      have hcell : name ∈ t.disabledKeys (name :: rest) := by
        rw [disabledKeys_cons, if_pos (by rw [Keyed.contains, hf]; rfl)]
        exact List.mem_cons_self
      simp only [disableColumns, hf]
      exact ((Keyed.agreeOff_set hcell row _).trans (Keyed.agreeOff_set htip _ _)).trans
        ((ih _).mono htail)
    | none =>
      cases ht : t.disabledText with
      | error e =>
        simp only [disableColumns, hf, ht]
        exact .refl _ _
      | ok text =>
        simp only [disableColumns, hf, ht]
        exact (Keyed.agreeOff_set htip row _).trans ((ih _).mono htail)

theorem agreeOff_disableColumns (t : Table) (row : Row) (names : List String) :
    AgreeOff (t.ownKeys names) row (disableColumns t row names).1 :=
  (disabledColumns_agreeOff t row names).mono (disabledKeys_subset_ownKeys t names)

theorem agreeOff_apply (shower : Shower) (t : Table) (row : Row) (enabled : Bool) :
    AgreeOff (t.ownKeys t.order) row (t.apply shower row enabled).row := by
  cases enabled with
  | true => exact agreeOff_computeColumns shower t row t.order
  | false => exact agreeOff_disableColumns t row t.order

theorem isSome_form_or_failure {c : Column} {name : String} (h : formulaName? c = some name) :
    c.name = name ∧ ((form? c).isSome = true ∨ (failure? c).isSome = true) := by
  cases hc : c.trimmedFormula? with
  | none => simp [formulaName?, hc] at h
  | some raw =>
    have hname : c.name = name := by simpa [formulaName?, hc] using h
    refine ⟨hname, ?_⟩
    unfold form? failure?
    cases ho : outcome? c with
    | none => simp [outcome?, hc] at ho
    | some r => cases r <;> simp

theorem Built.isFormulaColumn {options : Options} (h : Built options t) :
    ∀ name ∈ t.order, t.isFormulaColumn name = true := by
  obtain ⟨columns, noticed, rfl⟩ := h
  intro name hn
  obtain ⟨c, hc, hname⟩ := List.mem_filterMap.mp hn
  obtain ⟨rfl, hform | hfailure⟩ := isSome_form_or_failure hname
  · exact Bool.or_eq_true_iff.mpr (.inl (gather_contains form? hc hform))
  · exact Bool.or_eq_true_iff.mpr (.inr (gather_contains failure? hc hfailure))

theorem Built.apply_agreeOff {options : Options} (hb : Built options t)
    (hr : t.ReadsBackward t.order) (h : AgreeOff (t.ownKeys t.order) first second) :
    AgreeOff [] (t.apply shower first true).row (t.apply shower second true).row :=
  computeColumns_agreeOff hb.genuine hb.isFormulaColumn hr h

/-- In a table whose formulas read backward, what stood in the formula cells and in the tooltips
does not matter to a computation, be it from another one or from a pass that computed nothing. -/
theorem apply_over_stale {options : Options} (ht : Reachable shower options t)
    (hr : t.ReadsBackward t.order) :
    (∀ first second : Row, AgreeOff (t.ownKeys t.order) first second → ∀ key : String,
      (t.apply shower first true).row.get? key = (t.apply shower second true).row.get? key) ∧
    ∀ (row : Row) (enabled : Bool) (key : String),
      (t.apply shower (t.apply shower row enabled).row true).row.get? key =
        (t.apply shower row true).row.get? key := by
  constructor
  · intro first second h
    exact (ht.built.apply_agreeOff hr h).get?
  · intro row enabled
    have hpass := agreeOff_apply shower t row enabled
    exact (ht.built.apply_agreeOff hr hpass.symm).get?

def saleColumns : List ColumnEntry :=
  [.column ⟨"Subtotal", .formula, some "{Price} * {Qty}", none, none, none⟩,
    .column ⟨"Total", .formula, some "={Subtotal} + 5", none, none, none⟩]

theorem apply_over_stale_sale :
    let t := (new .standard).after standardShower [.prepare saleColumns]
    t.order = ["Subtotal", "Total"] ∧ t.dependencies "Total" = ["Subtotal"] ∧
      ∀ (row : Row) (key : String),
        (t.apply standardShower (t.apply standardShower row false).row true).row.get? key =
          (t.apply standardShower row true).row.get? key := by
  have hr : ((new .standard).after standardShower [.prepare saleColumns]).ReadsBackward
      ((new .standard).after standardShower [.prepare saleColumns]).order := by
    decide +kernel
  refine ⟨by decide +kernel, by decide +kernel, ?_⟩
  intro row key
  exact (apply_over_stale ⟨_, rfl⟩ hr).2 row false key

end Table
end FormulaTable
