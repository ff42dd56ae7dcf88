import FormulaTable.Proofs.Formula.Mention
import FormulaTable.Proofs.Table.Story

/-!
# Formulas that name their own column

A column is known by its trimmed name, and so is a field. A formula that names its own column in
braces is refused when the table is prepared, and from then on each row gets the error value in its
place, whatever the row holds.
-/

namespace FormulaTable.Table
open Formula (compile tokens straighten)

variable {shower : Shower} {t : Table} {row : Row} {options : Options}

theorem computeColumn_of_failure {name message : String} (h : t.failures.get? name = some message)
    (row : Row) :
    computeColumn shower t row name =
      (t.write row name t.options.errorValue (parseFailedText message), []) := by
  simp only [computeColumn, h]

theorem disableColumns_of_failure {name message : String}
    (h : t.failures.get? name = some message) (row : Row) (rest : List String) :
    disableColumns t row (name :: rest) =
      disableColumns t (t.write row name t.options.errorValue (parseFailedText message)) rest := by
  simp only [disableColumns, h]

def ShowsError (t : Table) (name : String) (row : Row) : Prop :=
  row.get? name = some (.text t.options.errorValue)

theorem showsError_write {name : String} (h : t.tooltipKey name ≠ name) (row : Row)
    (tooltip : String) : t.ShowsError name (t.write row name t.options.errorValue tooltip) :=
  write_get?_cell h row _ _

theorem ShowsError.write {name other : String} (h : t.ShowsError name row) (hn : name ≠ other)
    (ht : t.tooltipKey other ≠ name) (cell tooltip : String) :
    t.ShowsError name (t.write row other cell tooltip) := by
  have hother : ¬ (name = other ∨ name = t.tooltipKey other) := not_or.mpr ⟨hn, Ne.symm ht⟩
  rw [ShowsError, write_get?_of_ne hother]
  exact h

theorem ShowsError.computeColumn {name other : String} (h : t.ShowsError name row)
    (hn : name ≠ other) (ht : t.tooltipKey other ≠ name) :
    t.ShowsError name (computeColumn shower t row other).1 := by
  rw [computeColumn_row]
  cases t.verdict shower row other with
  | none => exact h
  | some p => exact h.write hn ht p.1 p.2

theorem computeColumns_showsError {name message : String} {names : List String}
    (hf : t.failures.get? name = some message) (ht : ∀ other ∈ names, t.tooltipKey other ≠ name)
    (h : name ∈ names ∨ t.ShowsError name row) :
    t.ShowsError name (computeColumns shower t row names).1 := by
  -- Once the cell shows the error value, it goes on doing so.
  induction names generalizing row with
  | nil => exact h.resolve_left List.not_mem_nil
  | cons other rest ih =>
    obtain ⟨hother, hrest⟩ := List.forall_mem_cons.mp ht
    rw [computeColumns_cons]
    apply ih hrest
    by_cases hn : name = other
    · subst hn
      rw [computeColumn_of_failure hf]
      exact .inr (showsError_write hother row _)
    · rcases h with hmem | hshown
      · exact .inl ((List.mem_cons.mp hmem).resolve_left hn)
      · exact .inr (hshown.computeColumn hn hother)

theorem disableColumns_showsError {name message : String} {names : List String}
    (hf : t.failures.get? name = some message) (ht : ∀ other ∈ names, t.tooltipKey other ≠ name)
    (h : name ∈ names ∨ t.ShowsError name row) (hfault : (disableColumns t row names).2 = none) :
    t.ShowsError name (disableColumns t row names).1 := by
  induction names generalizing row with
  | nil => exact h.resolve_left List.not_mem_nil
  | cons other rest ih =>
    obtain ⟨hother, hrest⟩ := List.forall_mem_cons.mp ht
    cases hm : t.failures.get? other with
    | some text =>
      rw [disableColumns_of_failure hm] at hfault ⊢
      refine ih hrest ?_ hfault
      by_cases hn : name = other
      · subst hn
        exact .inr (showsError_write hother row _)
      · exact h.imp (fun hmem => (List.mem_cons.mp hmem).resolve_left hn)
          fun hshown => hshown.write hn hother _ _
    | none =>
      have hn : name ≠ other := by
        rintro rfl
        rw [hf] at hm
        cases hm
      cases hd : t.disabledText with
      | error e => simp only [disableColumns, hm, hd, reduceCtorEq] at hfault
      | ok text =>
        simp only [disableColumns, hm, hd] at hfault ⊢
        refine ih hrest (h.imp (fun hmem => (List.mem_cons.mp hmem).resolve_left hn) ?_) hfault
        intro hshown
        rw [ShowsError, Keyed.get?_set_of_ne (Ne.symm hother)]
        exact hshown

theorem fault_apply_true (shower : Shower) (t : Table) (row : Row) :
    (t.apply shower row true).fault = none := rfl

theorem apply_showsError {name message : String} (hf : t.failures.get? name = some message)
    (hn : name ∈ t.order) (ht : ∀ other ∈ t.order, t.tooltipKey other ≠ name) (row : Row)
    {enabled : Bool} (hfault : (t.apply shower row enabled).fault = none) :
    t.ShowsError name (t.apply shower row enabled).row := by
  cases enabled with
  | true => exact computeColumns_showsError hf ht (.inl hn)
  | false => exact disableColumns_showsError hf ht (.inl hn) hfault

theorem readName_text {given name : String} (h : Column.readName (.text given) = .ok name) :
    name = Text.trim given ∧ Text.trimList given.toList ≠ [] := by
  rw [Column.readName] at h
  split at h
  · cases h
  · next hne =>
    cases h
    refine ⟨rfl, fun hnil => hne ?_⟩
    rw [Text.trim, hnil]
    rfl

theorem trimmedFormula?_of_compile {c : Column} {raw : String} {f : Formula.Compiled}
    (hc : c.formula = some raw) (h : compile raw = .ok f) :
    c.trimmedFormula? = some (Text.trim raw) := by
  have hne : (Text.trim raw).isEmpty = false := by
    by_contra hempty
    have hnil : Text.trimList raw.toList = [] := by simpa [Text.trim] using hempty
    have hbody : Formula.normalize raw = "" := by rw [Formula.normalize, hnil]; rfl
    rw [compile, hbody] at h
    cases h
  rw [Column.trimmedFormula?, hc]
  simp [hne]

theorem failure?_of_selfReference {c : Column} {raw : String} {f : Formula.Compiled}
    (hc : c.formula = some raw) (h : compile raw = .ok f) (hs : c.name ∈ f.dependencies) :
    failure? c = some selfReferenceMessage ∧ form? c = none := by
  have hraw := trimmedFormula?_of_compile hc h
  have hcompile := Formula.compile_trim h
  constructor <;>
    simp [failure?, form?, outcome?, hraw, hcompile, Formula.Compiled.references, hs]

/-- The field that is written around the text of a formula is its column's, if the name has no
curly quotes, which the formula would have straight. -/
theorem name_mem_dependencies {given name opening closing : String}
    (hname : Column.readName (.text given) = .ok name) (hbrace : '\x7d' ∉ given.toList)
    (hquotes : '“' ∉ given.toList ∧ '”' ∉ given.toList) {ts : List Formula.Token}
    (hopening : tokens (String.ofList (opening.toList.map straighten)) = .ok ts)
    {f : Formula.Compiled}
    (h : compile (opening ++ "\x7b" ++ given ++ "\x7d" ++ closing) = .ok f) :
    name ∈ f.dependencies := by
  obtain ⟨rfl, hne⟩ := readName_text hname
  have hlexed := Formula.lexed_of_tokens hopening
  rw [String.toList_ofList] at hlexed
  have hstraight : given.toList.map straighten = given.toList := by
    have hid : ∀ c ∈ given.toList, straighten c = id c := Formula.straighten_of_not_mem hquotes
    rw [List.map_congr_left hid, List.map_id]
  have htext : opening ++ "\x7b" ++ given ++ "\x7d" ++ closing = String.ofList
      (opening.toList ++ '\x7b' :: (given.toList ++ '\x7d' :: closing.toList)) := by
    rw [← String.toList_inj]
    simp
  rw [htext] at h
  have hmem := Formula.mem_dependencies_of_mention hlexed hbrace (by rwa [hstraight]) h
  rwa [hstraight] at hmem

/-- A column whose formula names it in braces, where a token may begin, is refused: up to the next
preparation a row gets the error value at the column's turn without a look at any field, and the
value stays unless some tooltip is kept under the column's name. If no other column has its name,
the failure is that of a reference to itself, and there is no compiled form. -/
theorem prepare_selfReference {before : Table} (hb : Reachable shower options before)
    {entries : List ColumnEntry} {columns : List Column}
    (hread : entries.mapM readEntry = .ok columns) {c : Column} (hc : c ∈ columns)
    {given opening closing : String}
    (hname : Column.readName (.text given) = .ok c.name) (hbrace : '\x7d' ∉ given.toList)
    (hquotes : '“' ∉ given.toList ∧ '”' ∉ given.toList) {ts : List Formula.Token}
    (hopening : tokens (String.ofList (opening.toList.map straighten)) = .ok ts)
    (hformula : c.formula = some (opening ++ "\x7b" ++ given ++ "\x7d" ++ closing))
    {f : Formula.Compiled}
    (hcompile : compile (opening ++ "\x7b" ++ given ++ "\x7d" ++ closing) = .ok f)
    {calls : List Action} (hcalls : ∀ a ∈ calls, a.isPrepare = false)
    (ht : t = (before.prepare entries).table.after shower calls) :
    (∃ message, t.failures.get? c.name = some message ∧
      (∀ row, computeColumn shower t row c.name =
        (t.write row c.name options.errorValue (parseFailedText message), [])) ∧
      ∀ row rest, disableColumns t row (c.name :: rest) =
        disableColumns t (t.write row c.name options.errorValue (parseFailedText message)) rest) ∧
      ((∀ d ∈ columns, d.name = c.name → d = c) →
        t.failures.get? c.name = some selfReferenceMessage ∧ t.compiled.get? c.name = none) ∧
      ∀ row enabled, (∀ name ∈ t.order, t.tooltipKey name ≠ c.name) →
        (t.apply shower row enabled).fault = none →
        (t.apply shower row enabled).row.get? c.name = some (.text options.errorValue) := by
  obtain ⟨noticed, hbuilt⟩ := (hb.built.prepared entries).after_calls shower hcalls
  rw [← ht, columnsOf, hread] at hbuilt
  have hs := name_mem_dependencies hname hbrace hquotes hopening hcompile
  obtain ⟨hfailure, hform⟩ := failure?_of_selfReference hformula hcompile hs
  have ho : t.options = options := by rw [hbuilt]; rfl
  obtain ⟨message, hf⟩ : ∃ message, t.failures.get? c.name = some message := by
    rw [hbuilt]
    exact Option.isSome_iff_exists.mp (gather_contains failure? hc (by rw [hfailure]; rfl))
  have horder : c.name ∈ t.order := by
    have hname : formulaName? c = some c.name := by
      rw [formulaName?, trimmedFormula?_of_compile hformula hcompile, Option.map_some]
    rw [hbuilt]
    exact List.mem_filterMap.mpr ⟨c, hc, hname⟩
  refine ⟨⟨message, hf, ?_, ?_⟩, ?_, ?_⟩
  · intro row
    rw [computeColumn_of_failure hf, ho]
  · intro row rest
    rw [disableColumns_of_failure hf, ho]
  · intro hsame
    rw [hbuilt]
    exact ⟨(gather_get?_of_only failure? hc hsame).trans hfailure,
      (gather_get?_of_only form? hc hsame).trans hform⟩
  · intro row enabled htip hfault
    rw [← ho]
    exact apply_showsError hf horder htip row hfault

theorem prepare_selfReference_bracketed :
    let c : Column :=
      ⟨"Total", .formula, some "“Sum: ” + (\x7b Total \x7d + 1)", none, none, none⟩
    let t := ((new .standard).prepare [.column subtotalColumn, .column c]).table.after
      standardShower [.notify 9000]
    t.order = ["Subtotal", "Total"] ∧ t.failures.get? "Total" = some selfReferenceMessage ∧
      ∀ row : Row, (t.apply standardShower row true).row.get? "Total" = some (.text "#ERR") := by
  intro c t
  have hread : [ColumnEntry.column subtotalColumn, .column c].mapM readEntry =
      .ok [subtotalColumn, c] := rfl
  have hc : c ∈ [subtotalColumn, c] := by simp
  have hsame : ∀ d ∈ [subtotalColumn, c], d.name = c.name → d = c := by decide +kernel
  have hname : Column.readName (.text " Total ") = .ok c.name := by decide +kernel
  have hopening : tokens (String.ofList ("“Sum: ” + (".toList.map straighten)) =
      .ok [.text "Sum: ", .operator .add, .left] := by decide +kernel
  have hformula : c.formula = some ("“Sum: ” + (" ++ "\x7b" ++ " Total " ++ "\x7d" ++ " + 1)") := by
    decide +kernel
  have hcompile : compile ("“Sum: ” + (" ++ "\x7b" ++ " Total " ++ "\x7d" ++ " + 1)") =
      .ok ⟨"“Sum: ” + (\x7b Total \x7d + 1)",
        [.text "Sum: ", .field "Total", .number 1, .operator .add, .operator .add], ["Total"]⟩ := by
    decide +kernel
  have hcalls : ∀ a ∈ [Action.notify 9000], a.isPrepare = false := by simp [Action.isPrepare]
  obtain ⟨-, hfailure, hshown⟩ := @prepare_selfReference standardShower t .standard
    (new .standard) ⟨[], rfl⟩ _ _ hread c hc _ _ _ hname (by decide +kernel)
    (by decide +kernel) _ hopening hformula _ hcompile _ hcalls rfl
  refine ⟨by decide +kernel, (hfailure hsame).1, fun row => ?_⟩
  exact hshown row true (by decide +kernel) (fault_apply_true _ _ row)

/-- Where the name has curly quotes, the formula reads another field, and where what comes before
is no row of tokens once its quotes are straight, the name in braces may end up in a text: neither
is refused. Another column of the name may keep a compiled form under it. A refused column is left
alone by a pass that stops before it, at a row limit without a text, and without a tooltip prefix
the reason stands in place of the error value. -/
theorem selfReference_unnoticed :
    (let c : Column := ⟨"“A”", .formula, some "\x7b“A”\x7d", none, none, none⟩
      let t := ((new .standard).prepare [.column c]).table
      Column.readName (.text "“A”") = .ok c.name ∧ tokens "" = .ok [] ∧
        compile "\x7b“A”\x7d" = .ok ⟨"\x7b“A”\x7d", [.field "\"A\""], ["\"A\""]⟩ ∧
        t.failures.get? c.name = none ∧ (t.compiled.get? c.name).isSome = true) ∧
      (let c : Column := ⟨"A", .formula, some "\"“\"\x7bA\x7d\"", none, none, none⟩
        let t := ((new .standard).prepare [.column c]).table
        Column.readName (.text "A") = .ok c.name ∧ tokens "\"“\"" = .ok [.text "“"] ∧
          compile "\"“\"\x7bA\x7d\"" =
            .ok ⟨"\"“\"\x7bA\x7d\"", [.text "", .text "\x7bA\x7d"], []⟩ ∧
          t.failures.get? c.name = none ∧ (t.compiled.get? c.name).isSome = true) ∧
      (let c : Column := ⟨"A", .formula, some "\x7bA\x7d", none, none, none⟩
        let other : Column := ⟨"A", .formula, some "1", none, none, none⟩
        let t := ((new .standard).prepare [.column c, .column other]).table
        t.failures.get? c.name = some selfReferenceMessage ∧
          (t.compiled.get? c.name).isSome = true) ∧
      (let one : Column := ⟨"One", .formula, some "1", none, none, none⟩
        let c : Column := ⟨"A", .formula, some "\x7bA\x7d", none, none, none⟩
        let t := ((new ⟨10 ^ 4300, "#ERR", "tip "⟩).prepare [.column one, .column c]).table
        t.failures.get? c.name = some selfReferenceMessage ∧
          ((t.apply standardShower .empty false).row.get? c.name).isNone = true) ∧
      let c : Column := ⟨"A", .formula, some "\x7bA\x7d", none, none, none⟩
      let t := ((new ⟨5000, "#ERR", ""⟩).prepare [.column c]).table
      t.failures.get? c.name = some selfReferenceMessage ∧
        ((t.apply standardShower .empty true).row.get? c.name).map Schema.readText =
          some (.ok (parseFailedText selfReferenceMessage)) := by
  refine ⟨?_, ?_, ?_, ?_, ?_⟩
  · decide +kernel
  · decide +kernel
  · decide +kernel
  · decide +kernel
  · decide +kernel

end FormulaTable.Table
