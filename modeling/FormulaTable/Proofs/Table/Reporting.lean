import FormulaTable.Proofs.Table.Refusal

/-!
# Reports of invalid entries

An invalid entry is reported with the name that it gives and with its bad fields. Two entries are
not: one with a number format that is neither a text nor counts as false, and one whose name has no
text to report it with. A preparation ends without a report just when such an entry comes after
valid ones.
-/

namespace FormulaTable

namespace Column
open Schema

variable {fields : List (String × Cell)}

def fieldNames : List String :=
  ["date_format", "formula", "formula_format", "name", "time_format", "type"]

theorem problemOf_sublist {α : Type} (field : String) (r : Except Cause α) :
    ((problemOf field r).map (·.field)).Sublist [some field] := by
  cases r with
  | ok a => exact List.nil_sublist _
  | error cause => exact List.Sublist.refl _

theorem readFields_error {e : ColumnError} (h : read.readFields fields = .error e) :
    ∃ problems, e = .invalid problems ∧ problems ≠ [] ∧
      (problems.map (·.field)).Sublist (fieldNames.map some) := by
  unfold read.readFields at h
  extract_lets dateFormat formula numberFormat name timeFormat kind at h
  clear_value dateFormat formula numberFormat name timeFormat kind
  split at h
  · cases h
  · next hfaulty =>
    cases h
    refine ⟨_, rfl, ?_, ?_⟩
    · intro hnil
      simp only [List.append_eq_nil_iff, problemOf_eq_nil_iff] at hnil
      obtain ⟨⟨⟨⟨⟨⟨d, hd⟩, f, hf⟩, nf, hnf⟩, n, hn⟩, t, ht⟩, k, hk⟩ := hnil
      exact hfaulty d f nf n t k hd hf hnf hn ht hk
    · -- Each field adds its problem in its place, or none.
      simp only [List.map_append]
      exact (((((problemOf_sublist _ _).append (problemOf_sublist _ _)).append
        (problemOf_sublist _ _)).append (problemOf_sublist _ _)).append
        (problemOf_sublist _ _)).append (problemOf_sublist _ _)

theorem readFields_ok {c : Column} (h : read.readFields fields = .ok c) :
    ∃ s, fields.lookup "name" = some (.text s) := by
  unfold read.readFields at h
  extract_lets dateFormat formula numberFormat name timeFormat kind at h
  have hname : (fields.lookup "name").elim (.error .missing) readName = name := rfl
  clear_value dateFormat formula numberFormat name timeFormat kind
  split at h
  · match hl : fields.lookup "name" with
    | some (.text s) => exact ⟨s, rfl⟩
    | none
    | some .empty | some (.flag _) | some (.whole _) | some (.number _) | some (.list _)
    | some (.mapping _) | some (.other _) | some .mute =>
      rw [hl] at hname
      cases hname
  · cases h

theorem read_cases (fields : List (String × Cell)) :
    (∃ c, fields.lookup "formula_format" = some c ∧ isFormatNotText c = true) ∧
        read fields = .error .formatNotText ∨
      read fields = read.readFields fields := by
  unfold read
  split
  · next c hc =>
    split
    · next hformat => exact .inl ⟨⟨c, hc, hformat⟩, rfl⟩
    · exact .inr rfl
  · exact .inr rfl

theorem read_of_isFormatNotText {c : Cell} (hc : fields.lookup "formula_format" = some c)
    (h : isFormatNotText c = true) : read fields = .error .formatNotText := by
  rw [read, hc]
  exact if_pos h

end Column

namespace Table
/-- What keeps an invalid configuration from being reported. -/
def Unreported (values : List (String × Cell)) : Prop :=
  (∃ c, values.lookup "formula_format" = some c ∧ Column.isFormatNotText c = true) ∨
    ∃ c cause, values.lookup "name" = some c ∧ c.fullText = .error cause

/-- `Described entry name problems`: the name is that of the entry, and the problems are those of
some of its fields, at most one of each, or of an entry without fields. -/
inductive Described : ColumnEntry → String → List Schema.Problem → Prop
  | unfit : Described .unfit "" [⟨none, .notMapping⟩]
  | fields {values : List (String × Cell)} {name : String} {problems : List Schema.Problem}
      (hname : givenName values = .ok name) (hne : problems ≠ [])
      (hfields : (problems.map (·.field)).Sublist (Column.fieldNames.map some)) :
      Described (.fields values) name problems

variable {values : List (String × Cell)} {entry : ColumnEntry} {e : PrepareError}

theorem readEntry_of_invalid {problems : List Schema.Problem}
    (h : Column.read values = .error (.invalid problems)) :
    readEntry (.fields values) =
      match givenName values with
      | .ok name => .error (.invalidColumn name problems)
      | .error cause => .error (.namelessColumn cause) := by
  cases hname : givenName values <;> simp only [readEntry, h, hname]

theorem readEntry_of_formatNotText (h : Column.read values = .error .formatNotText) :
    readEntry (.fields values) = .error .formatNotText := by
  rw [readEntry, h]

theorem readEntry_of_unreported (h : Unreported values) :
    ∃ e, readEntry (.fields values) = .error e ∧
      ∀ name problems, e ≠ .invalidColumn name problems := by
  rcases h with ⟨c, hc, hformat⟩ | ⟨c, cause, hc, htext⟩
  · have hread := Column.read_of_isFormatNotText hc hformat
    exact ⟨_, readEntry_of_formatNotText hread, nofun⟩
  · rcases Column.read_cases values with ⟨-, hread⟩ | hread
    · exact ⟨_, readEntry_of_formatNotText hread, nofun⟩
    · -- A name without a text is a bad field, so that there is something to report.
      cases hfields : Column.read.readFields values with
      | ok column =>
        obtain ⟨s, hs⟩ := Column.readFields_ok hfields
        obtain rfl := Option.some.inj (hc.symm.trans hs)
        cases htext
      | error e =>
        obtain ⟨problems, rfl, -⟩ := Column.readFields_error hfields
        have hname : givenName values = .error cause := by simp only [givenName, hc, htext]
        refine ⟨.namelessColumn cause, ?_, nofun⟩
        simp only [readEntry_of_invalid (hread.trans hfields), hname]

theorem unreported_of_givenName {cause : CellError} (h : givenName values = .error cause) :
    Unreported values := by
  unfold givenName at h
  split at h
  · next c hc => exact .inr ⟨c, cause, hc, h⟩
  · cases h

theorem readEntry_error (h : readEntry entry = .error e) :
    (∃ name problems, e = .invalidColumn name problems ∧ Described entry name problems) ∨
      ∃ values, entry = .fields values ∧ Unreported values := by
  cases entry with
  | column c => cases h
  | unfit =>
    cases h
    exact .inl ⟨_, _, rfl, .unfit⟩
  | fields values =>
    rcases Column.read_cases values with ⟨hformat, -⟩ | hread
    · exact .inr ⟨values, rfl, .inl hformat⟩
    · cases hfields : Column.read.readFields values with
      | ok column =>
        rw [readEntry, hread, hfields] at h
        cases h
      | error fault =>
        obtain ⟨problems, rfl, hne, hsub⟩ := Column.readFields_error hfields
        rw [readEntry_of_invalid (hread.trans hfields)] at h
        cases hname : givenName values with
        | error cause => exact .inr ⟨values, rfl, unreported_of_givenName hname⟩
        | ok name =>
          rw [hname] at h
          cases h
          exact .inl ⟨name, problems, rfl, .fields hname hne hsub⟩

/-- A preparation is refused without a report just when the first entry that is no column has a
number format or a name that cannot be told. A report is that of the first invalid entry. -/
theorem prepare_reports (t : Table) (entries : List ColumnEntry) :
    ((∃ e, (t.prepare entries).refusal = some e ∧
        ∀ name problems, e ≠ .invalidColumn name problems) ↔
      ∃ valid values rest, entries = valid ++ .fields values :: rest ∧
        (∀ x ∈ valid, ∃ c, readEntry x = .ok c) ∧ Unreported values) ∧
    ∀ name problems, (t.prepare entries).refusal = some (.invalidColumn name problems) →
      ∃ valid entry rest, entries = valid ++ entry :: rest ∧
        (∀ x ∈ valid, ∃ c, readEntry x = .ok c) ∧ Described entry name problems := by
  refine ⟨⟨?_, ?_⟩, ?_⟩
  · rintro ⟨e, he, hreport⟩
    rw [prepare_refusal_eq_some, mapM_readEntry_eq_error] at he
    obtain ⟨valid, entry, rest, hentries, hvalid, hentry⟩ := he
    rcases readEntry_error hentry with ⟨name, problems, rfl, -⟩ | ⟨values, rfl, hvalues⟩
    · exact absurd rfl (hreport name problems)
    · exact ⟨valid, values, rest, hentries, hvalid, hvalues⟩
  · rintro ⟨valid, values, rest, hentries, hvalid, hvalues⟩
    obtain ⟨e, he, hreport⟩ := readEntry_of_unreported hvalues
    refine ⟨e, ?_, hreport⟩
    rw [prepare_refusal_eq_some, mapM_readEntry_eq_error]
    exact ⟨valid, _, rest, hentries, hvalid, he⟩
  · intro name problems he
    rw [prepare_refusal_eq_some, mapM_readEntry_eq_error] at he
    obtain ⟨valid, entry, rest, hentries, hvalid, hentry⟩ := he
    refine ⟨valid, entry, rest, hentries, hvalid, ?_⟩
    rcases readEntry_error hentry with ⟨_, _, heq, hdescribed⟩ | ⟨values, rfl, hvalues⟩
    · cases heq
      exact hdescribed
    · obtain ⟨e, he, hreport⟩ := readEntry_of_unreported hvalues
      cases hentry.symm.trans he
      exact absurd rfl (hreport name problems)

/-- A number as a format, an object without a text as a name, and a whole number of too many digits
as a name. -/
theorem prepare_unreported :
    ((new .standard).prepare
        [.fields [("name", .text "F"), ("formula_format", .whole 5)]]).refusal =
      some .formatNotText ∧
    ((new .standard).prepare [.fields [("name", .mute)]]).refusal = some (.namelessColumn .mute) ∧
    ((new .standard).prepare [.fields [("name", .whole (10 ^ 4300))]]).refusal =
      some (.namelessColumn .numeralTooLong) := by
  refine ⟨by decide +kernel, by decide +kernel, by decide +kernel⟩

end Table
end FormulaTable
