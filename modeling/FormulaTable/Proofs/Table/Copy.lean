import FormulaTable.Proofs.Double.Kept
import FormulaTable.Proofs.Formula.LoneToken
import FormulaTable.Proofs.Table.Relay

/-!
# Numbers copied to another column

A column whose formula is a field on its own holds the kept text of the number in that field,
whatever its own number format. The columns after it read the number of the field in that text.
-/

namespace FormulaTable

namespace Formula
variable {f : Compiled} {lookup : Lookup} {name s : String} {c : Cell}

theorem evaluate_field (hcode : f.code = [.field name]) (hc : lookup name = some c)
    (hs : c.toKeptText = .ok s) : (evaluate f lookup).result = .ok (.text s) := by
  have hsingle : evaluate f lookup = runSingle lookup (.field name) := by rw [evaluate, hcode]; rfl
  rw [hsingle, runSingle_field hc, hs]
  rfl

end Formula

namespace Table
variable {shower : Shower} {t : Table} {row : Row} {source s : String}

theorem verdict_copies {c : Column} {raw : String} {f : Formula.Compiled} {held : Cell}
    (hk : t.Knows c) (hraw : c.trimmedFormula? = some raw) (hcompile : Formula.compile raw = .ok f)
    (hcode : f.code = [.field source]) (hne : source ≠ c.name) (hd : t.displays.get? source = none)
    (hrow : row.get? source = some held) (hs : held.toKeptText = .ok s) :
    t.verdict shower row c.name = some (s, "") := by
  have hself : c.name ∉ f.dependencies := by
    rw [Formula.mem_dependencies hcompile]
    simpa [hcode, Formula.Token.references] using Ne.symm hne
  have hvalue : resultOn shower t row f = .ok (.text s) :=
    Formula.evaluate_field hcode (congrArg some (seenField_of_get? hd hrow)) hs
  have hcell : cellText (format? c) (.text s) = s := by cases format? c <;> rfl
  rw [verdict_of_value hk hraw hcompile hself hvalue, hcell]

/-- The text of a finite double that is shown as it is stands for the same number. A column whose
formula is a field on its own, which holds that double at the column's turn, gets this text, and the
columns after it read the number in it. Neither of the two may be shown to formulas as a date or a
time; no column before the copy may write the field, and no tooltip may be written over the copy. -/
theorem copy_lossless {x : Float} (hx : x.isFinite = true) :
    ∃ s y, (Cell.number x).toKeptText = .ok s ∧ (Cell.text s).toNumber = .ok y ∧
      y.isFinite = true ∧ Double.value y = Double.value x ∧ (y == x) = true ∧
      ∀ {shower : Shower} {options : Options} {before t : Table} {entries : List ColumnEntry}
        {earlier later : List Column} {c : Column} {raw source : String} {f : Formula.Compiled}
        {row : Row},
        Reachable shower options before → entries.mapM readEntry = .ok (earlier ++ c :: later) →
        ((earlier ++ c :: later).map (·.name)).Nodup → t = (before.prepare entries).table →
        c.trimmedFormula? = some raw → Formula.compile raw = .ok f → f.code = [.field source] →
        source ≠ c.name →
        (∀ d ∈ earlier ++ c :: later, d.name = source ∨ d = c → displayOf? d = none) →
        row.get? source = some (.number x) → source ∉ t.ownKeys (earlier.filterMap formulaName?) →
        (∀ name ∈ c.name :: later.filterMap formulaName?, t.tooltipKey name ≠ c.name) →
        (t.apply shower row true).row.get? c.name = some (.text s) ∧
          ∀ front back, later.filterMap formulaName? = front ++ back →
            seenField shower t
              (computeColumns shower t row
                (earlier.filterMap formulaName? ++ c.name :: front)).1 c.name = .text s := by
  obtain ⟨s, y, hs, hread, hy, hvalue⟩ := Cell.exists_toNumber_toKeptText hx
  refine ⟨s, y, hs, hread, hy, hvalue, Double.beq_of_value_eq hy hx hvalue, ?_⟩
  intro shower options before t entries earlier later c raw source f row hb hentries hn ht hraw
    hcompile hcode hne hdisplays hrow hsource htips
  rw [prepare_ok hb.built.genuine hentries, hb.built.options_eq] at ht
  have hc : c ∈ earlier ++ c :: later := by simp
  have hname : formulaName? c = some c.name := by rw [formulaName?, hraw, Option.map_some]
  have horder : t.order =
      earlier.filterMap formulaName? ++ c.name :: later.filterMap formulaName? := by
    rw [ht, build, List.filterMap_append, List.filterMap_cons_some hname]
  have hfresh : c.name ∉ later.filterMap formulaName? := by
    rw [List.map_append, List.map_cons] at hn
    have hnames := (List.nodup_cons.mp (List.nodup_append.mp hn).2.1).1
    exact fun hmem => hnames ((order_sublist later).subset hmem)
  have hplain (name : String) (h : name = source ∨ name = c.name) :
      t.displays.get? name = none := by
    rw [ht]
    refine displays_build_eq_none fun d hd hd' => hdisplays d hd ?_
    exact h.imp (hd'.trans ·) fun h => List.inj_on_of_nodup_map hn hd hc (hd'.trans h)
  -- The columns before the copy leave the field alone.
  have hturn : (computeColumns shower t row (earlier.filterMap formulaName?)).1.get? source =
      some (.number x) := by
    rw [← hrow]
    exact (agreeOff_computeColumns shower t row _ source hsource).symm
  have hverdict : t.verdict shower (computeColumns shower t row (earlier.filterMap formulaName?)).1
      c.name = some (s, "") :=
    verdict_copies (ht ▸ knows_build options hn hc) hraw hcompile hcode hne (hplain _ (.inl rfl))
      hturn hs
  have hheld {front back : List String} (h : later.filterMap formulaName? = front ++ back) :
      (computeColumns shower t row
        (earlier.filterMap formulaName? ++ c.name :: front)).1.get? c.name = some (.text s) := by
    rw [h] at hfresh htips
    refine (computeColumns_written (fun hmem => hfresh (List.mem_append_left _ hmem)) hverdict).1 ?_
    exact fun name hmem => htips name (List.mem_append_left back hmem)
  constructor
  · have hfinal := hheld (List.append_nil _).symm
    rw [← horder] at hfinal
    exact hfinal
  · exact fun front back h => seenField_of_get? (hplain _ (.inr rfl)) (hheld h)

theorem copy_lossless_least :
    let least : Float := Float.ofBits 1
    let copy : Column := ⟨"Copy", .formula, some "= \x7bA\x7d", some .fixed2, none, none⟩
    let twice : Column := ⟨"Twice", .formula, some "\x7bCopy\x7d * 2", none, none, none⟩
    let t := ((new .standard).prepare [.column copy, .column twice]).table
    let row : Row := ⟨[("A", .number least)]⟩
    least.isFinite = true ∧ (Cell.text "5e-324").toNumber = .ok least ∧
      (t.apply standardShower row true).row.get? "Copy" = some (.text "5e-324") ∧
      seenField standardShower t (computeColumns standardShower t row ["Copy"]).1 "Copy" =
        .text "5e-324" := by
  intro least copy twice t row
  have hfinite : least.isFinite = true := by decide
  have htext : (Cell.number least).toKeptText = .ok "5e-324" := by decide +kernel
  have hnumber : (Cell.text "5e-324").toNumber = .ok least := by decide +kernel
  let f : Formula.Compiled := ⟨"= \x7bA\x7d", [.field "A"], ["A"]⟩
  have hcompile : Formula.compile "= \x7bA\x7d" = .ok f := by decide +kernel
  obtain ⟨s, y, hs, -, -, -, -, hcopy⟩ := copy_lossless hfinite
  obtain rfl := Except.ok.inj (htext.symm.trans hs)
  obtain ⟨hheld, hseen⟩ :=
    @hcopy standardShower .standard (new .standard) t [.column copy, .column twice] [] [twice] copy
      _ "A" f row ⟨[], rfl⟩ rfl (by decide) rfl rfl hcompile rfl (by decide) (by decide) rfl
      (by decide) (by decide +kernel)
  exact ⟨hfinite, hnumber, hheld, hseen [] ["Twice"] rfl⟩

end Table
end FormulaTable
