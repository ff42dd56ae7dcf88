import FormulaTable.Cell.Basic

/-! Values under names, in the order in which the names first came. -/

namespace FormulaTable

structure Keyed (α : Type) where
  entries : List (String × α)
deriving DecidableEq

namespace Keyed

variable {α : Type}

def empty : Keyed α := ⟨[]⟩

def get? (m : Keyed α) (key : String) : Option α := m.entries.lookup key

def put (key : String) (a : α) : List (String × α) → List (String × α)
  | [] => [(key, a)]
  | (k, b) :: rest => if k = key then (key, a) :: rest else (k, b) :: put key a rest

def set (m : Keyed α) (key : String) (a : α) : Keyed α := ⟨put key a m.entries⟩

def erase (m : Keyed α) (key : String) : Keyed α := ⟨m.entries.filter (·.1 != key)⟩

def contains (m : Keyed α) (key : String) : Bool := (m.get? key).isSome

theorem lookup_put_self (key : String) (a : α) (es : List (String × α)) :
    (put key a es).lookup key = some a := by
  induction es with
  | nil => simp [put]
  | cons e rest ih =>
    obtain ⟨k, b⟩ := e
    by_cases h : k = key
    · simp [put, h]
    · have h' : (key == k) = false := by simp [Ne.symm h]
      simp [put, h, List.lookup_cons, h', ih]

theorem lookup_put_of_ne {key other : String} (h : other ≠ key) (a : α)
    (es : List (String × α)) : (put key a es).lookup other = es.lookup other := by
  induction es with
  | nil =>
    have h' : (other == key) = false := by simp [h]
    simp [put, List.lookup_cons, h']
  | cons e rest ih =>
    obtain ⟨k, b⟩ := e
    by_cases hk : k = key
    · subst hk
      have h' : (other == k) = false := by simp [h]
      simp [put, List.lookup_cons, h']
    · simp only [put, hk, if_false, List.lookup_cons, ih]

@[simp] theorem get?_empty (key : String) : (empty : Keyed α).get? key = none := rfl

@[simp] theorem get?_set_self (m : Keyed α) (key : String) (a : α) :
    (m.set key a).get? key = some a := lookup_put_self key a m.entries

theorem get?_set_of_ne {key other : String} (h : other ≠ key) (m : Keyed α) (a : α) :
    (m.set key a).get? other = m.get? other := lookup_put_of_ne h a m.entries

theorem put_of_lookup_none {key : String} {es : List (String × α)} (h : es.lookup key = none)
    (a : α) : put key a es = es ++ [(key, a)] := by
  induction es with
  | nil => rfl
  | cons e rest ih =>
    obtain ⟨k, b⟩ := e
    rw [List.lookup_cons] at h
    split at h
    · cases h
    · next hkey =>
      have hne : k ≠ key := fun heq => by simp [heq] at hkey
      rw [put, if_neg hne, ih h, List.cons_append]

/-! Entries under certain names only. -/

section Filter
variable {key : String} {shown : String → Bool}

theorem filter_put_of_hidden (h : shown key = false) (a : α) (es : List (String × α)) :
    (put key a es).filter (fun e => shown e.1) = es.filter fun e => shown e.1 := by
  induction es with
  | nil => simp [put, h]
  | cons e rest ih =>
    by_cases hkey : e.1 = key
    · simp [put, hkey, h]
    · simp [put, hkey, List.filter_cons, ih]

theorem filter_put_of_shown (h : shown key = true) (a : α) (es : List (String × α)) :
    (put key a es).filter (fun e => shown e.1) = put key a (es.filter fun e => shown e.1) := by
  induction es with
  | nil => simp [put, h]
  | cons e rest ih =>
    by_cases hkey : e.1 = key
    · simp [put, hkey, h]
    · cases hshown : shown e.1 <;> simp [put, hkey, hshown, ih]

end Filter

end Keyed

abbrev Row := Keyed Cell

end FormulaTable
