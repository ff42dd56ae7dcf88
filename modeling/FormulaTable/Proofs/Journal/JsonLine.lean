import FormulaTable.Proofs.Formula.Reorder
import FormulaTable.Proofs.Journal.JsonWriter

/-!
# A record as a line of JSON

A line of JSON is one line, and reading it gives the record: its time, its level, its logger and its
message, the error if there is one, and the attributes given with the record, if any of them are to
be shown. These stand in an object of their own, so that none of them hides what the record says.
-/

namespace FormulaTable.Journal
open Formula (bind_eq_ok map_eq_ok)

namespace Json

section Parts
variable {native : Object → Option (List Char)} {describe : Cell → Except CellError String}
variable {depth : Nat}

theorem memberParts_append (fields more : List (String × Cell)) :
    memberParts native describe depth (fields ++ more) =
      (memberParts native describe depth fields).bind fun parts =>
        (memberParts native describe depth more).map (parts ++ ·) := by
  induction fields with
  | nil =>
    change memberParts native describe depth more =
      (memberParts native describe depth more).map ([] ++ ·)
    cases memberParts native describe depth more <;> rfl
  | cons e fields ih =>
    rw [List.cons_append, memberParts_cons, memberParts_cons, ih]
    cases ofCell native describe depth e.2 with
    | error cause => rfl
    | ok cs =>
      cases memberParts native describe depth fields with
      | error cause => rfl
      | ok parts => cases memberParts native describe depth more <;> rfl

theorem memberParts_texts (texts : List (String × String)) :
    memberParts native describe depth (texts.map fun e => (e.1, .text e.2)) =
      .ok (texts.map fun e => member e.1 (quoted e.2)) := by
  induction texts with
  | nil => rfl
  | cons e texts ih =>
    rw [List.map_cons, memberParts_cons, ih, ofCell]
    rfl

def extraField (fields : List (String × Cell)) : List (String × Cell) :=
  if fields = [] then [] else [("extra", .named fields)]

theorem memberParts_extraField {fields : List (String × Cell)} (h : fields ≠ []) :
    memberParts native describe 2 (extraField fields) =
      (memberParts native describe 3 fields).map fun parts => [member "extra" (object parts)] := by
  rw [extraField, if_neg h, memberParts_cons, ofCell_named (by decide)]
  cases memberParts native describe 3 fields <;> rfl

theorem exists_memberParts_concat {fields : List (String × Cell)} {e : String × Cell}
    {all : List (List Char)} (h : memberParts native describe depth (fields ++ [e]) = .ok all) :
    ∃ parts cs, memberParts native describe depth fields = .ok parts ∧
      all = parts ++ [member e.1 cs] := by
  rw [memberParts_append, memberParts_cons] at h
  obtain ⟨parts, hparts, h⟩ := bind_eq_ok h
  obtain ⟨last, hlast, rfl⟩ := map_eq_ok h
  obtain ⟨cs, -, hlast⟩ := bind_eq_ok hlast
  exact ⟨parts, cs, hparts, by rw [← Except.ok.inj hlast]⟩

theorem length_joined (parts : List (List Char)) (last : List Char) :
    (joined (parts ++ [last])).length =
      (parts.map List.length).sum + parts.length + last.length := by
  induction parts with
  | nil => simp [joined]
  | cons part parts ih =>
    rw [List.cons_append, joined_cons (List.append_ne_nil_of_right_ne_nil _ (List.cons_ne_nil _ _))]
    simp only [List.length_append, List.length_cons, List.map_cons, List.sum_cons, ih]
    omega

theorem length_joined_le (parts : List (List Char)) :
    (joined parts).length ≤ (parts.map List.length).sum + parts.length := by
  rcases List.eq_nil_or_concat parts with rfl | ⟨parts, last, rfl⟩
  · exact Nat.le_refl 0
  · rw [List.concat_eq_append, length_joined]
    simp only [List.map_append, List.sum_append, List.length_append, List.map_cons, List.map_nil,
      List.sum_cons, List.sum_nil, List.length_cons, List.length_nil]
    omega

theorem length_member (key : String) (cs : List Char) :
    (member key cs).length = (quoted key).length + 1 + cs.length := by
  simp only [member, List.length_append, List.length_cons]
  omega

theorem length_object (parts : List (List Char)) :
    (object parts).length = (joined parts).length + 2 := by
  simp only [object, List.length_append, List.length_cons, List.length_nil]

theorem length_extraField_lt {fields : List (String × Cell)} {e : String × Cell}
    {extra extra' : List (List Char)}
    (h : memberParts native describe 2 (extraField fields) = .ok extra)
    (h' : memberParts native describe 2 (extraField (fields ++ [e])) = .ok extra')
    (own : List (List Char)) : (joined (own ++ extra)).length < (joined (own ++ extra')).length := by
  rw [memberParts_extraField
    (List.append_ne_nil_of_right_ne_nil _ (List.cons_ne_nil _ _))] at h'
  obtain ⟨all, hall, rfl⟩ := map_eq_ok h'
  obtain ⟨parts, cs, hparts, rfl⟩ := exists_memberParts_concat hall
  rw [length_joined, length_member, length_object, length_joined, length_member]
  by_cases hfields : fields = []
  · rw [hfields] at h
    obtain rfl := Except.ok.inj h
    have hown := length_joined_le own
    rw [List.append_nil]
    omega
  · rw [memberParts_extraField hfields, hparts] at h
    obtain rfl := Except.ok.inj h
    have hshorter := length_joined_le parts
    rw [length_joined, length_member, length_object]
    omega

end Parts

end Json

namespace Record
variable {r : Record}

/-- The texts that a line holds besides the attributes given with the record. -/
def ownTexts (r : Record) (message : String) : List (String × String) :=
  [("timestamp", Instant.textWithMillis r.created r.millis), ("level", r.levelText),
    ("logger", r.loggerName), ("message", message)] ++
    r.errorText?.toList.map fun e => ("exception", e)

def members (r : Record) (message : String) : List (String × Json.Value) :=
  (r.ownTexts message).map (fun e => (e.1, .text e.2)) ++
    if r.extraFields = [] then []
    else [("extra", .object (r.extraFields.map fun e => (e.1, .ofCell e.2)))]

theorem jsonFields_eq (r : Record) (message : String) :
    r.jsonFields message =
      (r.ownTexts message).map (fun e => (e.1, .text e.2)) ++ Json.extraField r.extraFields := by
  rw [jsonFields, ownTexts, Json.extraField, List.map_append, List.map_map]
  cases r.extraFields <;> rfl

theorem jsonFields_value (r : Record) (message : String) :
    Json.Value.ofCell (.named (r.jsonFields message)) = .object (r.members message) := by
  rw [Json.Value.ofCell_named, jsonFields_eq, members, List.map_append, List.map_map]
  unfold Json.extraField
  split
  · rfl
  · rw [List.map_singleton, Json.Value.ofCell_named]
    rfl

theorem writable_jsonFields {knows : String → Prop} {levels : Nat}
    (h : ∀ e ∈ r.extraFields, Json.Writable knows levels e.2) (message : String) :
    Json.Writable knows (levels + 2) (.named (r.jsonFields message)) := by
  refine .named fun e he => ?_
  rw [jsonFields_eq] at he
  rcases List.mem_append.mp he with he | he
  · obtain ⟨own, -, rfl⟩ := List.mem_map.mp he
    exact .text own.2
  · unfold Json.extraField at he
    split at he
    · cases he
    · obtain rfl := List.mem_singleton.mp he
      exact .named h

theorem jsonLine_congr {r' : Record} (hmessage : r.message = r'.message)
    (hown : ∀ message, r.ownTexts message = r'.ownTexts message)
    (hfields : r.extraFields = r'.extraFields) (write : Json.Writer) :
    r.jsonLine write = r'.jsonLine write := by
  simp only [jsonLine, jsonFields_eq, hmessage, hown, hfields]

def lineWith (r : Record) (message : String) (extra : List (List Char)) : String :=
  String.ofList (Json.object
    ((r.ownTexts message).map (fun e => Json.member e.1 (Json.quoted e.2)) ++ extra))

theorem jsonLine_eq (r : Record) (native : Object → Option (List Char)) :
    r.jsonLine (Json.writer native) = (r.message.mapError .message).bind fun message =>
      (Json.memberParts native Cell.fullText 2 (Json.extraField r.extraFields)).map fun extra =>
        r.lineWith message extra := by
  rw [jsonLine]
  cases r.message with
  | error e => rfl
  | ok message =>
    change (Json.writer native Cell.fullText _).bind _ = _
    rw [Json.writer, Json.ofCell_named (by decide), jsonFields_eq, Json.memberParts_append,
      Json.memberParts_texts]
    cases Json.memberParts native Cell.fullText 2 (Json.extraField r.extraFields) <;> rfl

theorem names_members (r : Record) (message : String) :
    (r.members message).map (·.1) =
      ["timestamp", "level", "logger", "message"] ++
        ((if r.error.isSome then ["exception"] else []) ++
          if r.extraFields = [] then [] else ["extra"]) := by
  have herror : r.errorText?.isSome = r.error.isSome := Option.isSome_map
  rw [← herror]
  unfold members ownTexts
  cases r.errorText? <;> split <;> rfl

theorem isExtraKey_iff {key : String} :
    isExtraKey key = true ↔ key ∉ standardAttributes ∧ key.startsWith "_" = false := by
  simp [isExtraKey]

theorem extraFields_eq (r : Record) :
    r.extraFields = r.extra.entries.filter fun e =>
      e.1 ∉ standardAttributes ∧ e.1.startsWith "_" = false := by
  refine List.filter_congr fun e _ => ?_
  rw [Bool.eq_iff_iff, isExtraKey_iff, decide_eq_true_eq]

theorem extraFields_ne_nil_iff :
    r.extraFields ≠ [] ↔
      ∃ e ∈ r.extra.entries, e.1 ∉ standardAttributes ∧ e.1.startsWith "_" = false := by
  rw [extraFields_eq, Ne, List.filter_eq_nil_iff]
  push Not
  simp only [decide_eq_true_eq]

section WithAttribute
variable {key : String}

theorem textAttribute_withAttribute {other : String} (h : other ≠ key) (c : Cell)
    (default : String) :
    (r.withAttribute key c).textAttribute other default = r.textAttribute other default := by
  rw [textAttribute, withAttribute, Keyed.get?_set_of_ne h, textAttribute]

theorem message_withAttribute (h : "msg" ≠ key) (hmethod : "getMessage" ≠ key) (c : Cell) :
    (r.withAttribute key c).message = r.message := by
  have htemplate : (r.withAttribute key c).textAttribute "msg" r.template =
      r.textAttribute "msg" r.template := textAttribute_withAttribute h c _
  have hcallable : (r.withAttribute key c).extra.get? "getMessage" = r.extra.get? "getMessage" :=
    Keyed.get?_set_of_ne hmethod _ _
  rw [withAttribute] at *
  rw [message, message, htemplate, hcallable]

theorem ne_of_isExtraKey {other : String} (h : isExtraKey key = true)
    (hother : other ∈ standardAttributes) : other ≠ key := by
  rintro rfl
  exact (isExtraKey_iff.mp h).1 hother

theorem ownTexts_withAttribute (h : isExtraKey key = true) (c : Cell) (message : String) :
    (r.withAttribute key c).ownTexts message = r.ownTexts message := by
  have hlevel : "levelname" ≠ key := ne_of_isExtraKey h (by decide)
  have hname : "name" ≠ key := ne_of_isExtraKey h (by decide)
  simp only [ownTexts, levelText, loggerName, textAttribute_withAttribute hlevel,
    textAttribute_withAttribute hname]
  rfl

theorem extraFields_withAttribute_new (h : isExtraKey key = true) (hnew : r.extra.get? key = none)
    (c : Cell) : (r.withAttribute key c).extraFields = r.extraFields ++ [(key, c)] := by
  simp [extraFields, withAttribute, Keyed.set, Keyed.put_of_lookup_none hnew, h]

theorem jsonLine_withAttribute_ne {native : Object → Option (List Char)} {line : String}
    (h : isExtraKey key = true) (hmethod : "getMessage" ≠ key) (hnew : r.extra.get? key = none)
    (hline : r.jsonLine (Json.writer native) = .ok line) (c : Cell) :
    (r.withAttribute key c).jsonLine (Json.writer native) ≠ .ok line := by
  intro hsame
  rw [jsonLine_eq] at hline hsame
  rw [message_withAttribute (ne_of_isExtraKey h (by decide)) hmethod,
    extraFields_withAttribute_new h hnew] at hsame
  obtain ⟨message, hmessage, hline⟩ := bind_eq_ok hline
  obtain ⟨extra, hextra, rfl⟩ := map_eq_ok hline
  rw [hmessage] at hsame
  obtain ⟨extra', hextra', hsame⟩ := map_eq_ok hsame
  have hlt := Json.length_extraField_lt hextra hextra'
    ((r.ownTexts message).map fun e => Json.member e.1 (Json.quoted e.2))
  rw [lineWith, lineWith, ownTexts_withAttribute h] at hsame
  have hlength := congrArg List.length (String.ofList_injective hsame)
  rw [Json.length_object, Json.length_object] at hlength
  omega

end WithAttribute

theorem exists_jsonLine {write : Json.Writer} {knows : String → Prop} {limit levels : Nat}
    {message : String} (hwrite : write.IsStandard knows limit) (hlevels : levels + 2 ≤ limit)
    (hmessage : r.message = .ok message)
    (hextra : ∀ e ∈ r.extraFields, Json.Writable knows levels e.2) :
    ∃ line, r.jsonLine write = .ok line ∧ (∀ c ∈ line.toList, 0x20 ≤ c.toNat) ∧
      Json.read? line = some (.object (r.members message)) := by
  obtain ⟨cs, hcs, hencodes⟩ :=
    hwrite.exists_encodes (writable_jsonFields hextra message) hlevels
  rw [jsonFields_value] at hencodes
  refine ⟨String.ofList cs, ?_, ?_, Json.read?_ofList hencodes⟩
  · rw [jsonLine, hmessage]
    exact congrArg (Except.map String.ofList) hcs
  · rw [String.toList_ofList]
    exact hencodes.visible

end Record
end FormulaTable.Journal
