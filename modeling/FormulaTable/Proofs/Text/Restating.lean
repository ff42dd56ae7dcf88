import FormulaTable.Proofs.Text.Trim

/-!
# Texts restated

A text in which a value is read can be stated anew, in the one way in which that value is written.
If what is written is read back, as much of the value as it shows, then to restate is to bring texts
to a normal form: it is idempotent, and two texts become one just when they show the same.
-/

namespace FormulaTable.Text

@[simp] theorem toList_trim (s : String) : (trim s).toList = trimList s.toList :=
  String.toList_ofList

theorem trimList_trim (s : String) : trimList (trim s).toList = trimList s.toList := by
  rw [toList_trim, trimList, trimList, trimBy_trimBy]

theorem trim_trim (s : String) : trim (trim s) = trim s :=
  congrArg String.ofList (trimList_trim s)

structure Restating (α : Type) where
  read? : String → Option α
  write : α → String
  /-- As much of a value as its text shows. -/
  shown : α → α
  read?_trim : ∀ s, read? (trim s) = read? s
  read?_write : ∀ {s a}, read? s = some a → read? (write a) = some (shown a)
  write_shown : ∀ a, write (shown a) = write a

namespace Restating
variable {α : Type} (r : Restating α) {s t : String} {a b : α}

/-- The text of the value that is read in a text; a text in which none is read is trimmed. -/
def restate (s : String) : String :=
  match r.read? s with
  | some a => r.write a
  | none => trim s

theorem restate_of_some (h : r.read? s = some a) : r.restate s = r.write a := by rw [restate, h]

theorem restate_of_none (h : r.read? s = none) : r.restate s = trim s := by rw [restate, h]

theorem read?_restate (s : String) : r.read? (r.restate s) = (r.read? s).map r.shown := by
  cases h : r.read? s with
  | none => rw [r.restate_of_none h, r.read?_trim, h, Option.map_none]
  | some a => rw [r.restate_of_some h, r.read?_write h, Option.map_some]

theorem restate_restate (s : String) : r.restate (r.restate s) = r.restate s := by
  have hread := r.read?_restate s
  cases h : r.read? s with
  | none =>
    rw [h, Option.map_none] at hread
    rw [r.restate_of_none hread, r.restate_of_none h, trim_trim]
  | some a =>
    rw [h, Option.map_some] at hread
    rw [r.restate_of_some hread, r.restate_of_some h, r.write_shown]

theorem restate_eq_iff (hs : r.read? s = some a) (ht : r.read? t = some b) :
    r.restate s = r.restate t ↔ r.shown a = r.shown b := by
  constructor
  · intro h
    have hread := r.read?_restate s
    rw [h, r.read?_restate t, hs, ht] at hread
    exact (Option.some.inj hread).symm
  · intro h
    rw [r.restate_of_some hs, r.restate_of_some ht, ← r.write_shown a, h, r.write_shown]

end Restating
end FormulaTable.Text
