import FormulaTable.Proofs.Double.Reread
import FormulaTable.Proofs.Table.Story

/-!
# Canonical texts handed on

A formula that adds zero to a cell with a canonical text reads some double in it, perhaps not the
one that was written, and shows the same text. So a chain of such columns shows it in every one of
them.
-/

namespace FormulaTable

/-- The text is read as a number with the same text. -/
def Cell.Rereads (s : String) : Prop :=
  ∃ y, (Cell.text s).toNumber = .ok y ∧ y.isFinite = true ∧ (Cell.number y).toText = .ok s

theorem Cell.rereads_toText {x : Float} (hx : x.isFinite = true) {s : String}
    (hs : (Cell.number x).toText = .ok s) (hne : s ≠ "-0") : Rereads s := by
  obtain rfl : String.ofList (Double.canonicalText x) = s := Except.ok.inj hs
  have hminus : Double.canonicalText x ≠ ['-', '0'] := fun h => hne (by rw [h])
  obtain ⟨y, hread, hy, hsame⟩ := Double.exists_reread hx hminus
  have htrim : Text.trimList (Double.canonicalText x) = Double.canonicalText x := by
    refine Text.trimBy_of_forall_not fun c hc => ?_
    rcases (Double.wellShaped_canonicalText hx).mem c hc with hdigit | hother
    · exact Text.isBlank_of_isDigit hdigit
    · simp only [List.mem_cons, List.not_mem_nil, or_false] at hother
      rcases hother with rfl | rfl | rfl | rfl <;> decide
  refine ⟨y, ?_, hy, congrArg (Except.ok ∘ String.ofList) hsame⟩
  change Except.ok (numberOfText _) = _
  rw [numberOfText, String.toList_ofList, htrim, hread]
  exact congrArg Except.ok (if_pos hy)

namespace Formula

/-- The formula compiles to the sum of the field and zero. -/
def AddsZero (raw name : String) : Prop :=
  ∃ f, compile raw = .ok f ∧
    (f.code = [.field name, .number 0, .operator .add] ∨
      f.code = [.number 0, .field name, .operator .add])

theorem addsZero_of_rendered {name : String} {e : Tree} {s raw : List Char}
    (he : e = .binary .add (.field name) (.number 0) ∨ e = .binary .add (.number 0) (.field name))
    (hs : e.Rendered 0 s) (hq : e.Straight) (hraw : Typed s raw) :
    AddsZero (String.ofList raw) name := by
  obtain ⟨ts, hcompile⟩ := compile_of_rendered hs hq hraw
  refine ⟨_, hcompile, ?_⟩
  rcases he with rfl | rfl
  · exact .inl rfl
  · exact .inr rfl

variable {f : Compiled} {lookup : Lookup} {name : String} {c : Cell} {y : Float}

theorem canonicalText_add_zero (hy : y.isFinite = true) :
    (y + 0).isFinite = true ∧ Double.canonicalText (y + 0) = Double.canonicalText y ∧
      (0 + y).isFinite = true ∧ Double.canonicalText (0 + y) = Double.canonicalText y := by
  rcases Double.add_zero_cases hy with ⟨hright, hleft⟩ | ⟨hzero, hright, hleft⟩
  · rw [hright, hleft]
    exact ⟨hy, rfl, hy, rfl⟩
  · have hcanonical : Double.canonicalText 0 = Double.canonicalText y := by
      rw [Double.canonicalText_of_zero hzero hy]
      decide +kernel
    rw [hright, hleft]
    exact ⟨by decide, hcanonical, by decide, hcanonical⟩

theorem evaluate_addsZero
    (hcode : f.code = [.field name, .number 0, .operator .add] ∨
      f.code = [.number 0, .field name, .operator .add])
    (hc : lookup name = some c) (hnumber : c.toNumber = .ok y) (hy : y.isFinite = true) :
    ∃ z, (evaluate f lookup).result = .ok (.number z) ∧
      Double.canonicalText z = Double.canonicalText y := by
  obtain ⟨hright, hsame, hleft, hsame'⟩ := canonicalText_add_zero hy
  rcases hcode with hcode | hcode
  · refine ⟨y + 0, ?_, hsame⟩
    rw [evaluate, hcode]
    simp [evaluateCode, runOnStack, run, hc, Run.after, Operator.apply, Operand.isText,
      Operator.onNumbers, Operand.toNumber, hnumber, bind, Except.bind, Except.mapError, finish,
      hright]
  · refine ⟨0 + y, ?_, hsame'⟩
    rw [evaluate, hcode]
    simp [evaluateCode, runOnStack, run, hc, Run.after, Operator.apply, Operand.isText,
      Operator.onNumbers, Operand.toNumber, hnumber, bind, Except.bind, Except.mapError, finish,
      hleft]

end Formula

namespace Table
open Formula (AddsZero)

variable {shower : Shower} {t : Table} {row : Row} {source : String} {columns : List Column}
  {names : List String} {s : String}

/-- `Relay source columns names`: each of the columns `names` adds zero to the one before it, and
the first of them to `source`. They have no number format, and other columns may stand between
them. -/
inductive Relay : String → List Column → List String → Prop
  | nil {source : String} : Relay source [] []
  | other {source : String} {c : Column} {columns : List Column} {names : List String}
      (h : Relay source columns names) : Relay source (c :: columns) names
  | next {source raw : String} {c : Column} {columns : List Column} {names : List String}
      (hraw : c.trimmedFormula? = some raw) (hadd : AddsZero raw source) (hf : format? c = none)
      (h : Relay c.name columns names) : Relay source (c :: columns) (c.name :: names)

structure Knows (t : Table) (c : Column) : Prop where
  compiled : t.compiled.get? c.name = form? c
  failures : t.failures.get? c.name = failure? c
  formats : t.formats.get? c.name = format? c

theorem knows_build (options : Options) (hn : (columns.map (·.name)).Nodup) {c : Column}
    (hc : c ∈ columns) : (build options columns).Knows c := by
  have honly : ∀ d ∈ columns, d.name = c.name → d = c :=
    fun d hd => List.inj_on_of_nodup_map hn hd hc
  exact ⟨gather_get?_of_only form? hc honly, gather_get?_of_only failure? hc honly,
    gather_get?_of_only format? hc honly⟩

theorem displays_build_eq_none {options : Options} {name : String}
    (h : ∀ c ∈ columns, c.name = name → displayOf? c = none) :
    (build options columns).displays.get? name = none := by
  cases hd : (build options columns).displays.get? name with
  | none => rfl
  | some d =>
    obtain ⟨c, hc, hc', hv⟩ := gather_get? displayOf? hd
    rw [h c hc hc'] at hv
    cases hv

theorem apply_row_of_order {front back : List String} (h : t.order = front ++ back) :
    (t.apply shower row true).row =
      (computeColumns shower t (computeColumns shower t row front).1 back).1 := by
  rw [← computeColumns_append, ← h]
  rfl

theorem seenField_of_get? {name : String} {c : Cell} (hd : t.displays.get? name = none)
    (hrow : row.get? name = some c) : seenField shower t row name = c := by
  rw [seenField, hd, rawField, hrow]
  rfl

theorem verdict_of_value {c : Column} {raw : String} {f : Formula.Compiled} {v : Formula.Value}
    (hk : t.Knows c) (hraw : c.trimmedFormula? = some raw) (hcompile : Formula.compile raw = .ok f)
    (hs : c.name ∉ f.dependencies) (hv : resultOn shower t row f = .ok v) :
    t.verdict shower row c.name = some (cellText (format? c) v, "") := by
  have hself : f.references c.name = false := by
    rw [Formula.Compiled.references, List.contains_eq_mem]
    exact decide_eq_false hs
  have hform : form? c = some f := by simp [form?, outcome?, hraw, hcompile, hself]
  have hfailure : failure? c = none := by simp [failure?, outcome?, hraw, hcompile, hself]
  have hvalue : (evaluateOn shower t f row).1 = .ok v := hv
  rw [verdict, hk.failures, hfailure, hk.compiled, hform, hk.formats]
  simp only [Option.map_some, hvalue]

theorem verdict_addsZero {c : Column} {raw : String} (hk : t.Knows c)
    (hraw : c.trimmedFormula? = some raw) (hadd : AddsZero raw source) (hf : format? c = none)
    (hne : c.name ≠ source) (hs : Cell.Rereads s) (hd : t.displays.get? source = none)
    (hrow : row.get? source = some (.text s)) : t.verdict shower row c.name = some (s, "") := by
  obtain ⟨f, hcompile, hcode⟩ := hadd
  obtain ⟨y, hnumber, hy, htext⟩ := hs
  have hself : c.name ∉ f.dependencies := by
    rw [Formula.mem_dependencies hcompile]
    rcases hcode with hcode | hcode <;> simpa [hcode, Formula.Token.references] using hne
  have hseen : seenField shower t row source = .text s := seenField_of_get? hd hrow
  obtain ⟨z, hz, hcanonical⟩ :=
    @Formula.evaluate_addsZero f (fun name => some (seenField shower t row name)) source _ y hcode
      (congrArg some hseen) hnumber hy
  have hshown : (Formula.Value.number z).shown = s := by
    rw [Formula.Value.shown, hcanonical]
    exact Except.ok.inj htext
  rw [verdict_of_value hk hraw hcompile hself hz, hf]
  simp only [cellText, hshown]

theorem notMem_ownKeys {names : List String} {key : String} (hn : key ∉ names)
    (ht : ∀ name ∈ names, t.tooltipKey name ≠ key) : key ∉ t.ownKeys names := by
  intro hmem
  rcases mem_ownKeys.mp hmem with hmem | ⟨name, hname, hkey⟩
  · exact hn hmem
  · exact ht name hname hkey.symm

theorem relay_computeColumns (h : Relay source columns names)
    (hn : (columns.map (·.name)).Nodup) (hk : ∀ c ∈ columns, t.Knows c)
    (hd : ∀ name ∈ source :: names, t.displays.get? name = none)
    (ht : ∀ name ∈ columns.filterMap formulaName?, t.tooltipKey name ∉ source :: names)
    (hsource : source ∉ columns.filterMap formulaName?) (hs : Cell.Rereads s)
    (hrow : row.get? source = some (.text s)) :
    ∀ name ∈ source :: names,
      (computeColumns shower t row (columns.filterMap formulaName?)).1.get? name =
        some (.text s) := by
  induction h generalizing row with
  | nil =>
    intro name hname
    rw [List.mem_singleton.mp hname]
    exact hrow
  | @other source c columns names h ih =>
    obtain ⟨-, hn⟩ := List.nodup_cons.mp hn
    obtain ⟨-, hk⟩ := List.forall_mem_cons.mp hk
    cases hc : formulaName? c with
    | none =>
      rw [List.filterMap_cons_none hc] at ht hsource ⊢
      exact ih hn hk hd ht hsource hrow
    | some own =>
      rw [List.filterMap_cons_some hc] at ht hsource ⊢
      obtain ⟨hown, ht⟩ := List.forall_mem_cons.mp ht
      have hne : source ≠ own := List.ne_of_not_mem_cons hsource
      have hfree : source ∉ t.ownKeys [own] := by
        refine notMem_ownKeys (by simpa using hne) fun name hname => ?_
        rw [List.mem_singleton.mp hname]
        exact fun h => hown (h ▸ List.mem_cons_self)
      rw [computeColumns_cons]
      refine ih hn hk hd ht (List.not_mem_of_not_mem_cons hsource) ?_
      rw [← hrow]
      exact (agreeOff_computeColumn source hfree).symm
  | @next source raw c columns names hraw hadd hf h ih =>
    have hname : formulaName? c = some c.name := by rw [formulaName?, hraw, Option.map_some]
    have hwhole := agreeOff_computeColumns shower t row ((c :: columns).filterMap formulaName?)
    rw [List.filterMap_cons_some hname] at ht hsource hwhole ⊢
    have hkept : source ∉ t.ownKeys (c.name :: columns.filterMap formulaName?) :=
      notMem_ownKeys hsource fun name hmem h => ht name hmem (h ▸ List.mem_cons_self)
    obtain ⟨hfresh, hn⟩ := List.nodup_cons.mp hn
    obtain ⟨hknown, hk⟩ := List.forall_mem_cons.mp hk
    obtain ⟨hsource', hd⟩ := List.forall_mem_cons.mp hd
    have hne : source ≠ c.name := List.ne_of_not_mem_cons hsource
    obtain ⟨hown, ht⟩ := List.forall_mem_cons.mp ht
    have hverdict : t.verdict shower row c.name = some (s, "") :=
      verdict_addsZero hknown hraw hadd hf (Ne.symm hne) hs hsource' hrow
    have hcell : (computeColumn shower t row c.name).1.get? c.name = some (.text s) := by
      rw [computeColumn_row, hverdict]
      exact write_get?_cell (fun h => hown (by rw [h]; simp)) row s ""
    have hlater : c.name ∉ columns.filterMap formulaName? :=
      fun hmem => hfresh ((order_sublist columns).subset hmem)
    refine List.forall_mem_cons.mpr ⟨(hwhole source hkept).symm.trans hrow, ?_⟩
    rw [computeColumns_cons]
    exact ih hn hk hd (fun name hmem h => ht name hmem (List.mem_cons_of_mem source h)) hlater hcell

/-- The canonical text of a number is read as a number with the same text, unless it is that of a
zero with a minus. A table that has it in the cell of a column, whether given or computed, has it in
every column of a chain that adds zero to that one, provided that no tooltip is kept under the name
of one of these columns and that none of them is shown to formulas as a date or a time. -/
theorem canonical_relay {x : Float} (hx : x.isFinite = true)
    (hs : (Cell.number x).toText = .ok s) (hne : s ≠ "-0") :
    (∃ y, (Cell.text s).toNumber = .ok y ∧ (Cell.number y).toText = .ok s) ∧
      ∀ {shower : Shower} {options : Options} {before t : Table} {entries : List ColumnEntry}
        {first rest : List Column} {source : String} {names : List String} {row : Row},
        Reachable shower options before → entries.mapM readEntry = .ok (first ++ rest) →
        ((first ++ rest).map (·.name)).Nodup → t = (before.prepare entries).table →
        Relay source rest names → source ∉ rest.filterMap formulaName? →
        (∀ name ∈ t.order, t.tooltipKey name ∉ source :: names) →
        (∀ c ∈ first ++ rest, c.name ∈ source :: names → displayOf? c = none) →
        (t.apply shower row true).row.get? source = some (.text s) →
        ∀ name ∈ names, (t.apply shower row true).row.get? name = some (.text s) := by
  have hreread := Cell.rereads_toText hx hs hne
  constructor
  · obtain ⟨y, hread, -, hsame⟩ := hreread
    exact ⟨y, hread, hsame⟩
  · intro shower options before t entries first rest source names row hb hread hn ht hrelay hsource
      htips hdisplays hrow name hname
    rw [prepare_ok hb.built.genuine hread, hb.built.options_eq] at ht
    have horder : t.order = first.filterMap formulaName? ++ rest.filterMap formulaName? := by
      rw [ht, ← List.filterMap_append]
      rfl
    have hplain : ∀ name ∈ source :: names, t.displays.get? name = none := by
      rw [ht]
      exact fun name hname => displays_build_eq_none fun c hc hc' => hdisplays c hc (hc' ▸ hname)
    have hknows : ∀ c ∈ rest, t.Knows c := fun c hc =>
      ht ▸ knows_build options hn (List.mem_append_right first hc)
    have hrest : (rest.map (·.name)).Nodup := by
      rw [List.map_append] at hn
      exact hn.of_append_right
    have htips' : ∀ name ∈ rest.filterMap formulaName?, t.tooltipKey name ∉ source :: names :=
      fun name hmem => htips name (horder ▸ List.mem_append_right _ hmem)
    have hkept : source ∉ t.ownKeys (rest.filterMap formulaName?) :=
      notMem_ownKeys hsource fun name hmem h => htips' name hmem (h ▸ List.mem_cons_self)
    -- The columns before the chain are computed first, and then nothing writes the cell again.
    rw [apply_row_of_order horder] at hrow ⊢
    have hgiven := agreeOff_computeColumns shower t
      (computeColumns shower t row (first.filterMap formulaName?)).1 _ source hkept
    exact relay_computeColumns hrelay hrest hknows hplain htips' hsource hreread
      (hgiven.trans hrow) name (List.mem_cons_of_mem source hname)

theorem canonical_relay_third :
    let third : Float := Float.ofBits 0x3FD5555555555555
    let source : Column := ⟨"A", .formula, some "1 / 3", none, none, none⟩
    let first : Column := ⟨"B", .formula, some "\x7bA\x7d + 0", none, none, none⟩
    let between : Column := ⟨"Day", .date, some "\x7bC\x7d", none, none, none⟩
    let last : Column := ⟨"C", .formula, some "= 0 + \x7bB\x7d", some .auto, none, none⟩
    let t := ((new .standard).prepare
      [.column source, .column first, .column between, .column last]).table
    let row : Row := ⟨[("Day", .text "today")]⟩
    (Cell.number third).toText = .ok "0.333333" ∧
      (∃ y, (Cell.text "0.333333").toNumber = .ok y ∧ y ≠ third ∧
        (Cell.number y).toText = .ok "0.333333") ∧
      (t.apply standardShower row true).row.get? "A" = some (.text "0.333333") ∧
      ∀ name ∈ ["B", "C"],
        (t.apply standardShower row true).row.get? name = some (.text "0.333333") := by
  intro third source first between last t row
  have hfinite : third.isFinite = true := by decide
  have htext : (Cell.number third).toText = .ok "0.333333" := by decide +kernel
  obtain ⟨⟨y, hread, hsame⟩, hrelay⟩ := canonical_relay hfinite htext (by decide)
  have hother : (Cell.text "0.333333").toNumber ≠ .ok third := by decide +kernel
  have hzero : Formula.Lexeme (.number 0) ['0'] :=
    .number_of_value ⟨['0'], none, List.forall_mem_singleton.mpr rfl, by simp⟩
      (by decide +kernel) (by decide +kernel)
  have hA : Formula.Lexeme (.field "A") "\x7bA\x7d".toList :=
    @Formula.Lexeme.field ['A'] ['A'] (by decide) rfl (by decide)
  have hB : Formula.Lexeme (.field "B") "\x7bB\x7d".toList :=
    @Formula.Lexeme.field ['B'] ['B'] (by decide) rfl (by decide)
  have hsum : (Formula.Tree.binary .add (.field "A") (.number 0)).Rendered 0
      "\x7bA\x7d + 0".toList :=
    .sum (.inl rfl) (by decide) (.gapAfter (by decide) (.leaf (.field "A") hA))
      (.gapBefore (by decide) (.leaf (.number 0) hzero))
  have hsum' : (Formula.Tree.binary .add (.number 0) (.field "B")).Rendered 0
      "0 + \x7bB\x7d".toList :=
    .sum (.inl rfl) (by decide) (.gapAfter (by decide) (.leaf (.number 0) hzero))
      (.gapBefore (by decide) (.leaf (.field "B") hB))
  have hfirst : AddsZero "\x7bA\x7d + 0" "A" :=
    Formula.addsZero_of_rendered (.inl rfl) hsum (by simp [Formula.Tree.Straight])
      (@Formula.Typed.bare _ [] [] (List.forall_mem_nil _) (List.forall_mem_nil _))
  have hlast : AddsZero "= 0 + \x7bB\x7d" "B" :=
    Formula.addsZero_of_rendered (.inr rfl) hsum' (by simp [Formula.Tree.Straight])
      (@Formula.Typed.equals _ [] [' '] [] (List.forall_mem_nil _)
        (List.forall_mem_singleton.mpr rfl) (List.forall_mem_nil _))
  have hchain : Relay "A" [first, between, last] ["B", "C"] :=
    .next (by decide) hfirst rfl (.other (.next (by decide) hlast rfl .nil))
  have hshown : ((t.apply standardShower row true).row.get? "A").map Schema.readText =
      some (.ok "0.333333") := by decide +kernel
  have hsource : (t.apply standardShower row true).row.get? "A" = some (.text "0.333333") := by
    obtain ⟨c, hc, htext⟩ := Option.map_eq_some_iff.mp hshown
    rw [hc]
    cases c with
    | text s =>
      cases htext
      rfl
    | _ => cases htext
  refine ⟨htext, ⟨y, hread, fun h => hother (h ▸ hread), hsame⟩, hsource, ?_⟩
  exact @hrelay standardShower .standard (new .standard) t _ [source] _ "A" _ row ⟨[], rfl⟩ rfl
    (by decide) rfl hchain (by decide) (by decide +kernel) (by decide) hsource

end Table
end FormulaTable
