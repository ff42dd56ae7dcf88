import FormulaTable.Proofs.Journal.JsonValue

/-!
# Writers of JSON

What is asked of a library that writes cells: compact standard JSON, and the text of an object where
it does not know the class of the object. How it writes the classes that it knows is left open. Cells
without such objects are then written as the values that they stand for.
-/

namespace FormulaTable.Journal.Json
open Decimal (intText)

mutual

def Value.ofCell : Cell → Value
  | .empty | .mute => .null
  | .flag b => .flag b
  | .whole n => .whole n
  | .number x => .number x
  | .text s => .text s
  | .list items => .list (ofItems items)
  | .mapping entries => .object (ofEntries entries)
  | .other o => .text o.shown

def Value.ofItems : List Cell → List Value
  | [] => []
  | c :: rest => ofCell c :: ofItems rest

def Value.ofEntries : List (Cell × Cell) → List (String × Value)
  | [] => []
  | (.text key, c) :: rest => (key, ofCell c) :: ofEntries rest
  | _ :: rest => ofEntries rest

end

theorem Value.ofCell_list (items : List Cell) :
    ofCell (.list items) = .list (items.map ofCell) := by
  have hitems : ofItems items = items.map ofCell := by
    induction items with
    | nil => rfl
    | cons c items ih => rw [ofItems, ih, List.map_cons]
  rw [ofCell, hitems]

theorem Value.ofCell_named (fields : List (String × Cell)) :
    ofCell (.named fields) = .object (fields.map fun e => (e.1, .ofCell e.2)) := by
  have hentries : ofEntries (fields.map fun e => (.text e.1, e.2)) =
      fields.map fun e => (e.1, .ofCell e.2) := by
    induction fields with
    | nil => rfl
    | cons e fields ih => rw [List.map_cons, List.map_cons, ofEntries, ih]
  rw [Cell.named, ofCell, hentries]

/-- A cell nested at most so many levels deep: whole numbers of 64 bits, finite doubles, keys that are
texts, and objects of classes that are not known. -/
inductive Writable (knows : String → Prop) : Nat → Cell → Prop
  | empty {levels : Nat} : Writable knows levels .empty
  | flag {levels : Nat} (b : Bool) : Writable knows levels (.flag b)
  | whole {levels : Nat} {n : Int} (h : -2 ^ 63 ≤ n ∧ n < 2 ^ 64) :
      Writable knows levels (.whole n)
  | number {levels : Nat} {x : Float} (h : x.isFinite = true) : Writable knows levels (.number x)
  | text {levels : Nat} (s : String) : Writable knows levels (.text s)
  | other {levels : Nat} {o : Object} (h : ¬knows o.kind) : Writable knows levels (.other o)
  | list {levels : Nat} {items : List Cell} (h : ∀ c ∈ items, Writable knows levels c) :
      Writable knows (levels + 1) (.list items)
  | named {levels : Nat} {fields : List (String × Cell)}
      (h : ∀ e ∈ fields, Writable knows levels e.2) : Writable knows (levels + 1) (.named fields)

theorem Writable.mono {knows : String → Prop} {levels limit : Nat} {c : Cell}
    (h : Writable knows levels c) (hle : levels ≤ limit) : Writable knows limit c := by
  induction h generalizing limit with
  | empty => exact .empty
  | flag b => exact .flag b
  | whole h => exact .whole h
  | number h => exact .number h
  | text s => exact .text s
  | other h => exact .other h
  | list _ ih =>
    obtain ⟨limit, rfl⟩ := Nat.exists_eq_succ_of_ne_zero (by omega : limit ≠ 0)
    exact .list fun c hc => ih c hc (Nat.le_of_succ_le_succ hle)
  | named _ ih =>
    obtain ⟨limit, rfl⟩ := Nat.exists_eq_succ_of_ne_zero (by omega : limit ≠ 0)
    exact .named fun e he => ih e he (Nat.le_of_succ_le_succ hle)

theorem Cell.named_injective : Function.Injective Cell.named := by
  intro fields fields' h
  refine List.map_injective_iff.mpr ?_ (Cell.mapping.inj h)
  intro e e' heq
  obtain ⟨hkey, hcell⟩ := Prod.mk.inj heq
  exact Prod.ext (Cell.text.inj hkey) hcell

theorem Writable.of_named {knows : String → Prop} {levels : Nat} {fields : List (String × Cell)}
    (h : Writable knows (levels + 1) (.named fields)) :
    ∀ e ∈ fields, Writable knows levels e.2 := by
  generalize hc : Cell.named fields = c at h
  cases h with
  | named h => rwa [Cell.named_injective hc]
  | _ => cases hc

inductive Scalar : Cell → Value → Prop
  | empty : Scalar .empty .null
  | flag (b : Bool) : Scalar (.flag b) (.flag b)
  | whole {n : Int} (h : -2 ^ 63 ≤ n ∧ n < 2 ^ 64) : Scalar (.whole n) (.whole n)
  | number {x : Float} (h : x.isFinite = true) : Scalar (.number x) (.number x)

/-- The writer writes compact standard JSON: words and numbers that stand for the cell, texts in
quotes, and lists and mappings with their parts in order, as long as they are nested at most `limit`
levels deep. Only for an object of a class that it does not know it asks for a text. -/
structure Writer.IsStandard (write : Writer) (knows : String → Prop) (limit : Nat) : Prop where
  scalar : ∀ describe {c v}, Scalar c v → ∃ cs, write describe c = .ok cs ∧ Encodes cs v
  text : ∀ describe s, ∃ cs, write describe (.text s) = .ok cs ∧ Quotes cs s
  list : ∀ describe {items} (part : Cell → List Char), Writable knows limit (.list items) →
    (∀ c ∈ items, write describe c = .ok (part c)) →
      write describe (.list items) = .ok ('[' :: joined (items.map part) ++ [']'])
  named : ∀ describe {fields} (key : String → List Char) (part : String × Cell → List Char),
    Writable knows limit (.named fields) →
    (∀ e ∈ fields, write describe (.text e.1) = .ok (key e.1) ∧ write describe e.2 = .ok (part e)) →
      write describe (.named fields) = .ok (object (fields.map fun e => key e.1 ++ ':' :: part e))
  other : ∀ describe {o s}, ¬knows o.kind → describe (.other o) = .ok s →
    write describe (.other o) = write describe (.text s)

section Standard
variable {write : Writer} {knows : String → Prop} {limit : Nat}

theorem Writer.IsStandard.exists_encodes (hwrite : write.IsStandard knows limit) {levels : Nat}
    {c : Cell} (h : Writable knows levels c) (hle : levels ≤ limit) :
    ∃ cs, write Cell.fullText c = .ok cs ∧ Encodes cs (.ofCell c) := by
  induction h with
  | empty => exact hwrite.scalar _ .empty
  | flag b => exact hwrite.scalar _ (.flag b)
  | whole h => exact hwrite.scalar _ (.whole h)
  | number h => exact hwrite.scalar _ (.number h)
  | text s =>
    obtain ⟨cs, hcs, hquotes⟩ := hwrite.text Cell.fullText s
    exact ⟨cs, hcs, hquotes.encodes⟩
  | @other _ o h =>
    have hshown : Cell.fullText (.other o) = .ok o.shown :=
      congrArg Except.ok (String.ofList_toList)
    obtain ⟨cs, hcs, hquotes⟩ := hwrite.text Cell.fullText o.shown
    exact ⟨cs, (hwrite.other _ h hshown).trans hcs, hquotes.encodes⟩
  | @list levels items h ih =>
    choose! part hpart hencodes using fun c hc => ih c hc (Nat.le_of_succ_le hle)
    refine ⟨_, hwrite.list _ part ((Writable.list h).mono hle) hpart, ?_⟩
    rw [Value.ofCell_list]
    refine .list ?_
    rw [List.forall₂_map_left_iff, List.forall₂_map_right_iff, List.forall₂_same]
    exact hencodes
  | @named levels fields h ih =>
    choose! part hpart hencodes using fun e he => ih e he (Nat.le_of_succ_le hle)
    choose key hkey hquotes using hwrite.text Cell.fullText
    refine ⟨_, hwrite.named _ key part ((Writable.named h).mono hle) fun e he =>
      ⟨hkey e.1, hpart e he⟩, ?_⟩
    rw [Value.ofCell_named]
    refine encodes_object ?_
    rw [List.forall₂_map_left_iff, List.forall₂_map_right_iff, List.forall₂_same]
    exact fun e he => ⟨_, _, rfl, hquotes e.1, hencodes e he⟩

end Standard

section Writer
variable {native : Object → Option (List Char)} {describe : Cell → Except CellError String}
variable {knows : String → Prop} {levels depth : Nat}

theorem ofCell_list (h : depth ≤ deepest) (items : List Cell) :
    ofCell native describe depth (.list items) =
      (ofItems native describe (depth + 1) items).map fun parts => '[' :: joined parts ++ [']'] := by
  rw [ofCell, if_neg (Nat.not_lt.mpr h)]
  cases ofItems native describe (depth + 1) items <;> rfl

theorem ofItems_eq {items : List Cell} {part : Cell → List Char}
    (h : ∀ c ∈ items, ofCell native describe depth c = .ok (part c)) :
    ofItems native describe depth items = .ok (items.map part) := by
  induction items with
  | nil => rfl
  | cons c items ih =>
    obtain ⟨hc, hitems⟩ := List.forall_mem_cons.mp h
    rw [ofItems, hc, ih hitems]
    rfl

theorem ofItems_congr {other : Nat} {items : List Cell}
    (h : ∀ c ∈ items, ofCell native describe depth c = ofCell native describe other c) :
    ofItems native describe depth items = ofItems native describe other items := by
  induction items with
  | nil => rfl
  | cons c items ih =>
    obtain ⟨hc, hitems⟩ := List.forall_mem_cons.mp h
    rw [ofItems, ofItems, hc, ih hitems]

def memberParts (native : Object → Option (List Char)) (describe : Cell → Except CellError String)
    (depth : Nat) (fields : List (String × Cell)) : Except JsonError (List (List Char)) :=
  ofEntries native describe depth (fields.map fun e => (.text e.1, e.2))

theorem ofCell_named (h : depth ≤ deepest) (fields : List (String × Cell)) :
    ofCell native describe depth (.named fields) =
      (memberParts native describe (depth + 1) fields).map object := by
  rw [Cell.named, ofCell, if_neg (Nat.not_lt.mpr h), memberParts]
  cases ofEntries native describe (depth + 1) (fields.map fun e => (.text e.1, e.2)) <;> rfl

theorem memberParts_cons (e : String × Cell) (fields : List (String × Cell)) :
    memberParts native describe depth (e :: fields) =
      (ofCell native describe depth e.2).bind fun cs =>
        (memberParts native describe depth fields).map (member e.1 cs :: ·) := by
  rw [memberParts, List.map_cons, ofEntries]
  cases ofCell native describe depth e.2 <;> rfl

theorem memberParts_eq {fields : List (String × Cell)} {part : String × Cell → List Char}
    (h : ∀ e ∈ fields, ofCell native describe depth e.2 = .ok (part e)) :
    memberParts native describe depth fields = .ok (fields.map fun e => member e.1 (part e)) := by
  induction fields with
  | nil => rfl
  | cons e fields ih =>
    obtain ⟨he, hfields⟩ := List.forall_mem_cons.mp h
    rw [memberParts_cons, he, ih hfields]
    rfl

theorem memberParts_congr {other : Nat} {fields : List (String × Cell)}
    (h : ∀ e ∈ fields, ofCell native describe depth e.2 = ofCell native describe other e.2) :
    memberParts native describe depth fields = memberParts native describe other fields := by
  induction fields with
  | nil => rfl
  | cons e fields ih =>
    obtain ⟨he, hfields⟩ := List.forall_mem_cons.mp h
    rw [memberParts_cons, memberParts_cons, he, ih hfields]

theorem Writable.ofCell_eq {c : Cell} (h : Writable knows levels c) (hpositive : 0 < depth)
    (hdepth : depth + levels ≤ deepest + 1) :
    ofCell native describe depth c = ofCell native describe 1 c := by
  induction h generalizing depth with
  | @list levels items _ ih =>
    rw [ofCell_list (by omega), ofCell_list (by decide), ofItems_congr fun c hc => ?_]
    exact (ih c hc (by omega) (by omega)).trans (ih c hc (by omega) (by omega)).symm
  | @named levels fields _ ih =>
    rw [ofCell_named (by omega), ofCell_named (by decide), memberParts_congr fun e he => ?_]
    exact (ih e he (by omega) (by omega)).trans (ih e he (by omega) (by omega)).symm
  | _ => simp only [ofCell]

theorem isStandard_writer (h : ∀ o : Object, ¬knows o.kind → native o = none) :
    (writer native).IsStandard knows deepest where
  scalar describe c v h := by
    cases h with
    | empty => exact ⟨_, rfl, encodes_null⟩
    | flag b => exact ⟨_, rfl, encodes_flag b⟩
    | whole h => exact ⟨_, if_pos h, encodes_intText _⟩
    | number h => exact ⟨_, rfl, encodes_ofDouble h⟩
  text describe s := ⟨_, rfl, quotes_quoted s⟩
  list describe items part h hpart := by
    cases h with
    | list h =>
      have hitems : ∀ c ∈ items, ofCell native describe 2 c = .ok (part c) := fun c hc =>
        ((h c hc).ofCell_eq (by decide) (by decide)).trans (hpart c hc)
      rw [writer, ofCell_list (by decide), ofItems_eq hitems]
      rfl
  named describe fields key part h hpart := by
    have hfields : ∀ e ∈ fields, ofCell native describe 2 e.2 = .ok (part e) := fun e he =>
      ((h.of_named e he).ofCell_eq (by decide) (by decide)).trans (hpart e he).2
    have hkey : fields.map (fun e => member e.1 (part e)) =
        fields.map fun e => key e.1 ++ ':' :: part e :=
      List.map_congr_left fun e he =>
        congrArg (· ++ ':' :: part e) (Except.ok.inj (hpart e he).1)
    rw [writer, ofCell_named (by decide), memberParts_eq hfields, ← hkey]
    rfl
  other describe o s hknows hs := by
    simp only [writer, ofCell, h o hknows, described, hs]

theorem isStandard_plainWriter : plainWriter.IsStandard (fun _ => False) deepest :=
  isStandard_writer fun _ _ => rfl

/-- A time of a day with a letter in place of the space, as a writer shows it that knows such
times. -/
def stamp? (o : Object) : Option (List Char) :=
  if o.kind = "datetime" then
    some (quoted (String.ofList (o.shown.toList.map fun c => if c = ' ' then 'T' else c)))
  else none

theorem isStandard_writer_stamp : (writer stamp?).IsStandard (· = "datetime") deepest :=
  isStandard_writer fun _ h => if_neg h

end Writer

end FormulaTable.Journal.Json
