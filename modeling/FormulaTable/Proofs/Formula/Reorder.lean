import FormulaTable.Formula.Postfix

/-!
# Reordering step by step

Each token puts out some tokens of the result and changes what waits. A run over the tokens is the
steps one after the other.
-/

namespace FormulaTable.Formula

theorem bind_eq_ok {α β ε : Type} {x : Except ε α} {f : α → Except ε β} {b : β}
    (h : x >>= f = .ok b) : ∃ a, x = .ok a ∧ f a = .ok b := by
  cases x with
  | error e => cases h
  | ok a => exact ⟨a, rfl, h⟩

theorem map_eq_ok {α β ε : Type} {x : Except ε α} {f : α → β} {b : β}
    (h : x.map f = .ok b) : ∃ a, x = .ok a ∧ f a = b := by
  cases x with
  | error e => cases h
  | ok a =>
    cases h
    exact ⟨a, rfl, rfl⟩

theorem map_eq_error {α β ε : Type} {x : Except ε α} {f : α → β} {e : ε}
    (h : x.map f = .error e) : x = .error e := by
  cases x with
  | error e' =>
    cases h
    rfl
  | ok a => cases h

theorem map_eq_error_iff {α β ε : Type} {x : Except ε α} {f : α → β} {e : ε} :
    x.map f = .error e ↔ x = .error e := by
  refine ⟨map_eq_error, ?_⟩
  rintro rfl
  rfl

theorem bind_eq_error {α β ε : Type} {x : Except ε α} {f : α → Except ε β} {e : ε}
    (h : x >>= f = .error e) : x = .error e ∨ ∃ a, x = .ok a ∧ f a = .error e := by
  cases x with
  | error e' =>
    cases h
    exact .inl rfl
  | ok a => exact .inr ⟨a, rfl, h⟩

def emit (out : List Token) (r : Except CompileError (List Token)) :
    Except CompileError (List Token) := r.map (out ++ ·)

@[simp] theorem emit_ok (out ts : List Token) : emit out (.ok ts) = .ok (out ++ ts) := rfl

theorem emit_emit (out more : List Token) (r : Except CompileError (List Token)) :
    emit out (emit more r) = emit (out ++ more) r := by
  cases r <;> simp [emit, Except.map]

theorem emit_eq_ok {out ts : List Token} {r : Except CompileError (List Token)}
    (h : emit out r = .ok ts) : ∃ tail, r = .ok tail ∧ ts = out ++ tail := by
  obtain ⟨tail, hr, he⟩ := map_eq_ok h
  exact ⟨tail, hr, he.symm⟩

structure Advance where
  out : List Token
  waiting : List Pending
  operandDue : Bool

def advance (waiting : List Pending) (operandDue : Bool) : Token → Except CompileError Advance
  | .left => .ok ⟨[], .paren :: waiting, true⟩
  | .right => (releaseParen waiting).map fun (out, rest) => ⟨out, rest, false⟩
  | .operator op =>
    if operandDue ∧ !op.isSign then .error (.unaryNotSupported (String.singleton op.symbol))
    else
      let (out, rest) := releaseTo op.precedence waiting
      .ok ⟨(if operandDue then [.number 0] else []) ++ out, .operator op :: rest, true⟩
  | .unknown symbol =>
    if operandDue then .error (.unaryNotSupported symbol) else .error (.unknownOperator symbol)
  | t => .ok ⟨[t], waiting, false⟩

theorem emit_nil (r : Except CompileError (List Token)) : emit [] r = r := by cases r <;> rfl

theorem bind_ok_append (out : List Token) (r : Except CompileError (List Token)) :
    (do let tail ← r; Except.ok (out ++ tail)) = emit out r := by cases r <;> rfl

theorem reorder_cons (waiting : List Pending) (operandDue : Bool) (t : Token) (ts : List Token) :
    reorder waiting operandDue (t :: ts) =
      (advance waiting operandDue t).bind fun a =>
        emit a.out (reorder a.waiting a.operandDue ts) := by
  cases t with
  | left => exact (emit_nil _).symm
  | right =>
    rw [reorder, advance]
    cases releaseParen waiting with
    | error e => rfl
    | ok released => exact bind_ok_append released.1 _
  | operator op =>
    rw [reorder, advance]
    split
    · rfl
    · exact bind_ok_append ((if operandDue then [.number 0] else []) ++
        (releaseTo op.precedence waiting).1) _
  | unknown symbol => cases operandDue <;> rfl
  | number x => exact bind_ok_append [.number x] _
  | text s => exact bind_ok_append [.text s] _
  | field name => exact bind_ok_append [.field name] _

theorem reorder_cons_eq_ok {waiting : List Pending} {operandDue : Bool} {t : Token}
    {ts out : List Token} (h : reorder waiting operandDue (t :: ts) = .ok out) :
    ∃ a tail, advance waiting operandDue t = .ok a ∧
      reorder a.waiting a.operandDue ts = .ok tail ∧ out = a.out ++ tail := by
  rw [reorder_cons] at h
  obtain ⟨a, ha, h⟩ := bind_eq_ok h
  obtain ⟨tail, ht, ho⟩ := emit_eq_ok h
  exact ⟨a, tail, ha, ht, ho⟩

theorem releaseTo_split (precedence : Nat) (waiting : List Pending) :
    ∃ ops : List Operator, (releaseTo precedence waiting).1 = ops.map .operator ∧
      waiting = ops.map .operator ++ (releaseTo precedence waiting).2 := by
  induction waiting with
  | nil => exact ⟨[], rfl, rfl⟩
  | cons p rest ih =>
    cases p with
    | paren => exact ⟨[], rfl, rfl⟩
    | operator op =>
      rw [releaseTo]
      split
      · exact ⟨[], rfl, rfl⟩
      · obtain ⟨ops, hout, hrest⟩ := ih
        exact ⟨op :: ops, congrArg (Token.operator op :: ·) hout,
          congrArg (Pending.operator op :: ·) hrest⟩

theorem releaseParen_split {waiting rest : List Pending} {out : List Token}
    (h : releaseParen waiting = .ok (out, rest)) :
    ∃ ops : List Operator, out = ops.map .operator ∧
      waiting = ops.map .operator ++ .paren :: rest := by
  induction waiting generalizing out rest with
  | nil => cases h
  | cons p waiting ih =>
    cases p with
    | paren =>
      cases h
      exact ⟨[], rfl, rfl⟩
    | operator op =>
      obtain ⟨⟨out', rest'⟩, hr, h⟩ := map_eq_ok (by rwa [releaseParen] at h)
      cases h
      obtain ⟨ops, rfl, rfl⟩ := ih hr
      exact ⟨op :: ops, rfl, rfl⟩

theorem releaseAll_split {waiting : List Pending} {out : List Token}
    (h : releaseAll waiting = .ok out) :
    ∃ ops : List Operator, out = ops.map .operator ∧ waiting = ops.map .operator := by
  induction waiting generalizing out with
  | nil =>
    cases h
    exact ⟨[], rfl, rfl⟩
  | cons p waiting ih =>
    cases p with
    | paren => cases h
    | operator op =>
      obtain ⟨out', hr, h⟩ := map_eq_ok (by rwa [releaseAll] at h)
      cases h
      obtain ⟨ops, rfl, rfl⟩ := ih hr
      exact ⟨op :: ops, rfl, rfl⟩

def Token.IsAdded (t : Token) : Prop := t = .number 0 ∨ ∃ op, t = .operator op

theorem mem_map_operator {ops : List Operator} {t : Token} (h : t ∈ ops.map Token.operator) :
    t.IsAdded := by
  obtain ⟨op, -, rfl⟩ := List.mem_map.mp h
  exact .inr ⟨op, rfl⟩

theorem mem_releaseTo {precedence : Nat} {waiting : List Pending} {t : Token}
    (h : t ∈ (releaseTo precedence waiting).1) : t.IsAdded := by
  obtain ⟨ops, hout, -⟩ := releaseTo_split precedence waiting
  rw [hout] at h
  exact mem_map_operator h

theorem mem_releaseParen {waiting rest : List Pending} {out : List Token}
    (h : releaseParen waiting = .ok (out, rest)) : ∀ t ∈ out, t.IsAdded := by
  obtain ⟨ops, rfl, -⟩ := releaseParen_split h
  exact fun t => mem_map_operator

theorem mem_releaseAll {waiting : List Pending} {out : List Token}
    (h : releaseAll waiting = .ok out) : ∀ t ∈ out, t.IsAdded := by
  obtain ⟨ops, rfl, -⟩ := releaseAll_split h
  exact fun t => mem_map_operator

theorem mem_advance {waiting : List Pending} {operandDue : Bool} {t : Token} {a : Advance}
    (h : advance waiting operandDue t = .ok a) : ∀ u ∈ a.out, u = t ∨ u.IsAdded := by
  intro u hu
  cases t with
  | left =>
    cases h
    cases hu
  | right =>
    obtain ⟨⟨out, rest⟩, hp, h⟩ := map_eq_ok (by rwa [advance] at h)
    cases h
    exact .inr (mem_releaseParen hp u hu)
  | operator op =>
    rw [advance] at h
    split at h
    · cases h
    · cases h
      rcases List.mem_append.mp hu with hu | hu
      · cases operandDue with
        | false => cases hu
        | true => exact .inr (.inl (List.mem_singleton.mp hu))
      · exact .inr (mem_releaseTo hu)
  | unknown symbol => cases operandDue <;> cases h
  | number x =>
    cases h
    exact .inl (List.mem_singleton.mp hu)
  | text s =>
    cases h
    exact .inl (List.mem_singleton.mp hu)
  | field name =>
    cases h
    exact .inl (List.mem_singleton.mp hu)

theorem mem_reorder {waiting : List Pending} {operandDue : Bool} {ts out : List Token}
    (h : reorder waiting operandDue ts = .ok out) : ∀ t ∈ out, t ∈ ts ∨ t.IsAdded := by
  induction ts generalizing waiting operandDue out with
  | nil => exact fun t ht => .inr (mem_releaseAll h t ht)
  | cons t ts ih =>
    obtain ⟨a, tail, ha, ht, rfl⟩ := reorder_cons_eq_ok h
    intro u hu
    rcases List.mem_append.mp hu with hu | hu
    · rcases mem_advance ha u hu with rfl | hadded
      · exact .inl List.mem_cons_self
      · exact .inr hadded
    · rcases ih ht u hu with hmem | hadded
      · exact .inl (List.mem_cons_of_mem t hmem)
      · exact .inr hadded

end FormulaTable.Formula
