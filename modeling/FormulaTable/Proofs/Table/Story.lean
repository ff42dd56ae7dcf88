import FormulaTable.Proofs.Formula.Coherence
import FormulaTable.Proofs.Table.ColumnOrder

/-!
# What a cell and its tooltip tell

A formula column fails to compile, fails at its turn or has a value, and its cell and its tooltip
say the same of it. They keep saying it at the end of the row, unless one of the two stands where
another column, or the column itself, writes as well.
-/

namespace FormulaTable.Table
open Formula (compile evaluate)

variable {shower : Shower} {t : Table} {row : Row} {options : Options}

def resultOn (shower : Shower) (t : Table) (row : Row) (f : Formula.Compiled) :
    Except Formula.EvalError Formula.Value :=
  (evaluate f fun name => some (seenField shower t row name)).result

/-- `Story shower t row c raw cell tooltip`: with `row` as it is at the turn of the column `c`, whose
formula is `raw`, the cell and the tooltip tell what became of the formula. -/
inductive Story (shower : Shower) (t : Table) (row : Row) (c : Column) (raw : String) :
    String → String → Prop
  | uncompiled {e : Formula.CompileError} (h : compile raw = .error e) :
      Story shower t row c raw t.options.errorValue ("Formula parse failed: " ++ e.message)
  | selfReading {f : Formula.Compiled} (h : compile raw = .ok f) (hs : c.name ∈ f.dependencies) :
      Story shower t row c raw t.options.errorValue
        ("Formula parse failed: " ++ selfReferenceMessage)
  | failed {f : Formula.Compiled} {e : Formula.EvalError} (h : compile raw = .ok f)
      (hs : c.name ∉ f.dependencies) (he : resultOn shower t row f = .error e) :
      Story shower t row c raw t.options.errorValue ("Formula error: " ++ e.message)
  | text {f : Formula.Compiled} {s : String} (h : compile raw = .ok f)
      (hs : c.name ∉ f.dependencies) (hv : resultOn shower t row f = .ok (.text s)) :
      Story shower t row c raw s ""
  | number {f : Formula.Compiled} {x : Float} (h : compile raw = .ok f)
      (hs : c.name ∉ f.dependencies) (hv : resultOn shower t row f = .ok (.number x))
      (hx : x.isFinite = true) (hf : c.numberFormat = none ∨ c.numberFormat = some .auto) :
      Story shower t row c raw (String.ofList (Double.canonicalText x)) ""
  | formatted {f : Formula.Compiled} {x : Float} {format : NumberFormat} {s : String}
      (h : compile raw = .ok f) (hs : c.name ∉ f.dependencies)
      (hv : resultOn shower t row f = .ok (.number x)) (hx : x.isFinite = true)
      (hf : c.numberFormat = some format) (hne : format ≠ .auto) (ht : format.text? x = some s) :
      Story shower t row c raw s ""

theorem Story.unique {c : Column} {raw cell tooltip cell' tooltip' : String}
    (h : Story shower t row c raw cell tooltip) (h' : Story shower t row c raw cell' tooltip') :
    cell = cell' ∧ tooltip = tooltip' := by
  cases h <;> cases h' <;> simp_all

theorem isSome_text? (format : NumberFormat) {x : Float} (hx : x.isFinite = true) :
    ∃ s, format.text? x = some s := by
  unfold NumberFormat.text?
  dsimp only
  split
  · exact ⟨_, rfl⟩
  · exact ⟨_, rfl⟩

theorem story_of_ok {c : Column} {raw : String} {f : Formula.Compiled} (h : compile raw = .ok f)
    (hs : c.name ∉ f.dependencies) {v : Formula.Value} (hv : resultOn shower t row f = .ok v) :
    Story shower t row c raw (cellText (format? c) v) "" := by
  cases v with
  | text s =>
    have hcell : cellText (format? c) (.text s) = s := by cases format? c <;> rfl
    rw [hcell]
    exact .text h hs hv
  | number x =>
    have hx := Formula.evaluate_isFinite h hv
    unfold format?
    split
    · next hauto => exact .number h hs hv hx (.inr hauto)
    · next hnone => exact .number h hs hv hx (.inl hnone)
    · next format hne hsome =>
      obtain ⟨s, hshown⟩ := isSome_text? format hx
      have hcell : cellText (some format) (.number x) = s := by simp [cellText, hshown]
      rw [hcell]
      exact .formatted h hs hv hx hsome hne hshown

theorem exists_story {columns : List Column} (hn : (columns.map (·.name)).Nodup) {c : Column}
    (hc : c ∈ columns) {raw : String} (hraw : c.trimmedFormula? = some raw) (shower : Shower)
    (row : Row) :
    ∃ cell tooltip, (build options columns).verdict shower row c.name = some (cell, tooltip) ∧
      Story shower (build options columns) row c raw cell tooltip := by
  have honly : ∀ d ∈ columns, d.name = c.name → d = c :=
    fun d hd => List.inj_on_of_nodup_map hn hd hc
  have hfailure : (build options columns).failures.get? c.name = failure? c :=
    gather_get?_of_only failure? hc honly
  have hform : (build options columns).compiled.get? c.name = form? c :=
    gather_get?_of_only form? hc honly
  have hformat : (build options columns).formats.get? c.name = format? c :=
    gather_get?_of_only format? hc honly
  rw [verdict, hfailure, hform, hformat]
  cases hcompile : compile raw with
  | error e =>
    have hmessage : failure? c = some e.message := by simp [failure?, outcome?, hraw, hcompile]
    rw [hmessage]
    exact ⟨_, _, rfl, .uncompiled hcompile⟩
  | ok f =>
    by_cases hs : c.name ∈ f.dependencies
    · have hmessage : failure? c = some selfReferenceMessage := by
        simp [failure?, outcome?, hraw, hcompile, Formula.Compiled.references, hs]
      rw [hmessage]
      exact ⟨_, _, rfl, .selfReading hcompile hs⟩
    · have hnone : failure? c = none := by
        simp [failure?, outcome?, hraw, hcompile, Formula.Compiled.references, hs]
      have hsome : form? c = some f := by
        simp [form?, outcome?, hraw, hcompile, Formula.Compiled.references, hs]
      rw [hnone, hsome]
      cases hv : resultOn shower (build options columns) row f with
      | error e =>
        have heval : (evaluateOn shower (build options columns) f row).1 = .error e := hv
        refine ⟨_, _, ?_, .failed hcompile hs hv⟩
        simp only [Option.map_some, heval]
        rfl
      | ok v =>
        have heval : (evaluateOn shower (build options columns) f row).1 = .ok v := hv
        refine ⟨_, _, ?_, story_of_ok hcompile hs hv⟩
        simp only [Option.map_some, heval]

theorem computeColumns_append (shower : Shower) (t : Table) (row : Row) (names more : List String) :
    (computeColumns shower t row (names ++ more)).1 =
      (computeColumns shower t (computeColumns shower t row names).1 more).1 := by
  induction names generalizing row with
  | nil => rfl
  | cons name names ih => rw [List.cons_append, computeColumns_cons, computeColumns_cons, ih]

theorem write_get?_cell {name : String} (h : t.tooltipKey name ≠ name) (row : Row)
    (cell tooltip : String) :
    (t.write row name cell tooltip).get? name = some (.text cell) := by
  rw [write, Keyed.get?_set_of_ne (Ne.symm h), Keyed.get?_set_self]

theorem write_get?_tooltip (t : Table) (row : Row) (name cell tooltip : String) :
    (t.write row name cell tooltip).get? (t.tooltipKey name) = some (.text tooltip) :=
  Keyed.get?_set_self ..

/-- After its turn a column's cell stays unless a tooltip is kept under the column's name, and its
tooltip stays unless a later column has that name. -/
theorem computeColumns_written {before later : List String} {name cell tooltip : String}
    (hn : name ∉ later)
    (hv : t.verdict shower (computeColumns shower t row before).1 name = some (cell, tooltip)) :
    ((∀ other ∈ name :: later, t.tooltipKey other ≠ name) →
      (computeColumns shower t row (before ++ name :: later)).1.get? name = some (.text cell)) ∧
    (t.tooltipKey name ∉ later →
      (computeColumns shower t row (before ++ name :: later)).1.get? (t.tooltipKey name) =
        some (.text tooltip)) := by
  rw [computeColumns_append, computeColumns_cons, computeColumn_row, hv]
  generalize (computeColumns shower t row before).1 = reached
  have hkept := agreeOff_computeColumns shower t (t.write reached name cell tooltip) later
  constructor
  · intro ht
    have hfree : name ∉ t.ownKeys later := by
      intro hmem
      rcases mem_ownKeys.mp hmem with hmem | ⟨other, ho, he⟩
      · exact hn hmem
      · exact ht other (List.mem_cons_of_mem name ho) he.symm
    exact (hkept name hfree).symm.trans (write_get?_cell (ht name List.mem_cons_self) ..)
  · intro ht
    have hfree : t.tooltipKey name ∉ t.ownKeys later := by
      intro hmem
      rcases mem_ownKeys.mp hmem with hmem | ⟨other, ho, he⟩
      · exact ht hmem
      · exact hn (t.tooltipKey_injective he ▸ ho)
    exact (hkept _ hfree).symm.trans (write_get?_tooltip ..)

/-- In a row of a table prepared with columns of different names, every formula column's cell and
tooltip tell the story of its turn: the cell if no tooltip key from there on is the column's name,
the tooltip if no later formula column has the tooltip's key for its name. -/
theorem apply_story {before : Table} (hb : Reachable shower options before)
    {entries : List ColumnEntry} {earlier later : List Column} {c : Column}
    (hread : entries.mapM readEntry = .ok (earlier ++ c :: later))
    (hn : ((earlier ++ c :: later).map (·.name)).Nodup) {raw : String}
    (hraw : c.trimmedFormula? = some raw) (ht : t = (before.prepare entries).table) (row : Row) :
    ∃ cell tooltip,
      Story shower t (computeColumns shower t row (earlier.filterMap formulaName?)).1 c raw
        cell tooltip ∧
      ((∀ other ∈ c.name :: later.filterMap formulaName?, t.tooltipKey other ≠ c.name) →
        (t.apply shower row true).row.get? c.name = some (.text cell)) ∧
      (t.tooltipKey c.name ∉ later.filterMap formulaName? →
        (t.apply shower row true).row.get? (t.tooltipKey c.name) = some (.text tooltip)) := by
  rw [prepare_ok hb.built.genuine hread, hb.built.options_eq] at ht
  subst ht
  have hc : c ∈ earlier ++ c :: later := by simp
  obtain ⟨cell, tooltip, hv, hstory⟩ := exists_story hn hc hraw shower
    (computeColumns shower (build options (earlier ++ c :: later)) row
      (earlier.filterMap formulaName?)).1
  have hname : formulaName? c = some c.name := by rw [formulaName?, hraw, Option.map_some]
  have horder : (build options (earlier ++ c :: later)).order =
      earlier.filterMap formulaName? ++ c.name :: later.filterMap formulaName? := by
    rw [build, List.filterMap_append, List.filterMap_cons_some hname]
  have hlater : c.name ∉ later.filterMap formulaName? := by
    rw [List.map_append, List.map_cons] at hn
    have hfresh := (List.nodup_cons.mp (List.nodup_append.mp hn).2.1).1
    exact fun hmem => hfresh ((order_sublist later).subset hmem)
  have hwritten := computeColumns_written hlater hv
  rw [← horder] at hwritten
  exact ⟨cell, tooltip, hstory, hwritten⟩

def subtotalColumn : Column := ⟨"Subtotal", .formula, some "{Price} * {Qty}", none, none, none⟩

def totalColumn : Column :=
  ⟨"Total", .formula, some "={Subtotal} + 5", some .fixed2, none, none⟩

theorem apply_story_sale :
    let t := ((new .standard).prepare [.column subtotalColumn, .column totalColumn]).table
    let row : Row := ⟨[("Price", .text "2.5"), ("Qty", .whole 4)]⟩
    ∃ cell tooltip,
      Story standardShower t (computeColumns standardShower t row ["Subtotal"]).1 totalColumn
        "={Subtotal} + 5" cell tooltip ∧
      (t.apply standardShower row true).row.get? "Total" = some (.text cell) ∧ cell = "15.00" ∧
      (t.apply standardShower row true).row.get? (t.tooltipKey "Total") = some (.text tooltip) := by
  intro t row
  obtain ⟨cell, tooltip, hstory, hcell, htooltip⟩ :=
    @apply_story standardShower t .standard (new .standard) ⟨[], rfl⟩
      [.column subtotalColumn, .column totalColumn] [subtotalColumn] [] totalColumn rfl
      (by decide) "={Subtotal} + 5" (by decide) rfl row
  have hfinal : ((t.apply standardShower row true).row.get? "Total").map Schema.readText =
      some (.ok "15.00") := by decide +kernel
  have hcell : (t.apply standardShower row true).row.get? "Total" = some (.text cell) :=
    hcell (by decide +kernel)
  refine ⟨cell, tooltip, hstory, hcell, ?_, htooltip (by decide +kernel)⟩
  rw [hcell] at hfinal
  simpa [Schema.readText] using hfinal

/-- Without a tooltip prefix the tooltip is written over the cell, and with any prefix it is where
the prefix and a column's name make up another column's name. -/
theorem apply_story_colliding :
    (∃ options, Options.read [("tooltip_prefix", .text "")] = .ok options ∧
      let c : Column := ⟨"Total", .formula, some "1 + 1", none, none, none⟩
      let t := ((new options).prepare [.column c]).table
      ¬ ∃ cell tooltip, Story standardShower t .empty c "1 + 1" cell tooltip ∧
        (t.apply standardShower .empty true).row.get? "Total" = some (.text cell) ∧
        (t.apply standardShower .empty true).row.get? (t.tooltipKey "Total") =
          some (.text tooltip)) ∧
    ∃ options, Options.read [("tooltip_prefix", .text "note ")] = .ok options ∧
      let c : Column := ⟨"note A", .formula, some "1 + 1", none, none, none⟩
      let d : Column := ⟨"A", .formula, some "2 + 2", none, none, none⟩
      let t := ((new options).prepare [.column c, .column d]).table
      ¬ ∃ cell tooltip, Story standardShower t .empty c "1 + 1" cell tooltip ∧
        (t.apply standardShower .empty true).row.get? "note A" = some (.text cell) ∧
        (t.apply standardShower .empty true).row.get? (t.tooltipKey "note A") =
          some (.text tooltip) := by
  let sum : Formula.Compiled := ⟨"1 + 1", [.number 1, .number 1, .operator .add], []⟩
  have hsum : compile "1 + 1" = .ok sum := by decide +kernel
  have htwo : Float.isFinite 2 = true := by decide
  have hstory (t : Table) (c : Column) (hf : c.numberFormat = none)
      (hv : resultOn standardShower t .empty sum = .ok (.number 2)) :
      Story standardShower t .empty c "1 + 1" (String.ofList (Double.canonicalText 2)) "" :=
    .number hsum List.not_mem_nil hv htwo (.inl hf)
  have hshown : String.ofList (Double.canonicalText 2) ≠ "" := by decide +kernel
  constructor
  · refine ⟨⟨5000, "#ERR", ""⟩, by decide +kernel, ?_⟩
    intro c t
    rintro ⟨cell, tooltip, h, hcell, -⟩
    have hfinal : ((t.apply standardShower .empty true).row.get? "Total").map Schema.readText =
        some (.ok "") := by decide +kernel
    obtain ⟨rfl, -⟩ := (hstory t c rfl (by decide +kernel)).unique h
    rw [hcell] at hfinal
    exact hshown (by simpa [Schema.readText] using hfinal)
  · refine ⟨⟨5000, "#ERR", "note "⟩, by decide +kernel, ?_⟩
    intro c d t
    rintro ⟨cell, tooltip, h, hcell, -⟩
    have hfinal : ((t.apply standardShower .empty true).row.get? "note A").map Schema.readText =
        some (.ok "") := by decide +kernel
    obtain ⟨rfl, -⟩ := (hstory t c rfl (by decide +kernel)).unique h
    rw [hcell] at hfinal
    exact hshown (by simpa [Schema.readText] using hfinal)

end FormulaTable.Table
