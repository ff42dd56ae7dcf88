import FormulaTable.Formula.Evaluation
import FormulaTable.Proofs.Formula.Reorder

/-!
# What a formula reads

Reordering keeps the fields of a formula and their order. Where two lookups agree on the fields
that a compiled formula names, they give it the same result.
-/

namespace FormulaTable.Formula

def Token.references (ts : List Token) : List String :=
  ts.filterMap fun | .field name => some name | _ => none

theorem Token.references_append (ts us : List Token) :
    references (ts ++ us) = references ts ++ references us := List.filterMap_append

theorem references_map_operator (ops : List Operator) :
    Token.references (ops.map .operator) = [] := by
  simp [Token.references]

theorem releaseTo_references (precedence : Nat) (waiting : List Pending) :
    Token.references (releaseTo precedence waiting).1 = [] := by
  obtain ⟨ops, hout, -⟩ := releaseTo_split precedence waiting
  rw [hout, references_map_operator]

theorem releaseParen_references {waiting rest : List Pending} {out : List Token}
    (h : releaseParen waiting = .ok (out, rest)) : Token.references out = [] := by
  obtain ⟨ops, rfl, -⟩ := releaseParen_split h
  exact references_map_operator ops

theorem releaseAll_references {waiting : List Pending} {out : List Token}
    (h : releaseAll waiting = .ok out) : Token.references out = [] := by
  obtain ⟨ops, rfl, -⟩ := releaseAll_split h
  exact references_map_operator ops

theorem advance_references {waiting : List Pending} {operandDue : Bool} {t : Token} {a : Advance}
    (h : advance waiting operandDue t = .ok a) :
    Token.references a.out = Token.references [t] := by
  cases t with
  | left =>
    cases h
    rfl
  | right =>
    obtain ⟨⟨out, rest⟩, hp, h⟩ := map_eq_ok (by rwa [advance] at h)
    cases h
    exact releaseParen_references hp
  | operator op =>
    rw [advance] at h
    split at h
    · cases h
    · cases h
      rw [Token.references_append, releaseTo_references]
      cases operandDue <;> rfl
  | unknown symbol => cases operandDue <;> cases h
  | number x =>
    cases h
    rfl
  | text s =>
    cases h
    rfl
  | field name =>
    cases h
    rfl

theorem reorder_references {waiting : List Pending} {operandDue : Bool} {ts out : List Token}
    (h : reorder waiting operandDue ts = .ok out) :
    Token.references out = Token.references ts := by
  induction ts generalizing waiting operandDue out with
  | nil => exact releaseAll_references h
  | cons t ts ih =>
    obtain ⟨a, tail, ha, ht, rfl⟩ := reorder_cons_eq_ok h
    calc Token.references (a.out ++ tail)
        = Token.references [t] ++ Token.references ts := by
          rw [Token.references_append, advance_references ha, ih ht]
      _ = Token.references (t :: ts) := (Token.references_append [t] ts).symm

theorem compile_eq_ok {raw : String} {f : Compiled} (h : compile raw = .ok f) :
    ∃ ts, tokens (normalize raw) = .ok ts ∧ postfixOf ts = .ok f.code ∧
      f.dependencies = Token.fields ts ∧ f.raw = raw := by
  unfold compile at h
  dsimp only at h
  split at h
  · cases h
  · obtain ⟨ts, hts, h⟩ := bind_eq_ok h
    obtain ⟨code, hcode, h⟩ := bind_eq_ok h
    cases h
    exact ⟨ts, hts, hcode, rfl, rfl⟩

theorem compile_of_tokens {raw : String} {ts code : List Token}
    (hts : tokens (normalize raw) = .ok ts) (hcode : postfixOf ts = .ok code) (hne : code ≠ []) :
    compile raw = .ok ⟨raw, code, Token.fields ts⟩ := by
  have hbody : (normalize raw).isEmpty = false := by
    refine Bool.eq_false_iff.mpr fun hempty => ?_
    have hnormal : normalize raw = "" := by simpa using hempty
    rw [hnormal] at hts
    have hnone : tokens "" = .ok [] := by simp [tokens, scan]
    obtain rfl := Except.ok.inj (hnone.symm.trans hts)
    exact hne (Except.ok.inj hcode).symm
  simp [compile, hbody, hts, hcode, bind, Except.bind]

theorem mem_dependencies {raw : String} {f : Compiled} (h : compile raw = .ok f) (name : String) :
    name ∈ f.dependencies ↔ name ∈ Token.references f.code := by
  obtain ⟨ts, -, hcode, hd, -⟩ := compile_eq_ok h
  rw [hd, reorder_references hcode]
  exact List.mem_eraseDups

theorem run_congr {first second : Lookup} {code : List Token}
    (h : ∀ name ∈ Token.references code, first name = second name) (stack : List Operand) :
    run first code stack = run second code stack := by
  induction code generalizing stack with
  | nil => rfl
  | cons t code ih =>
    cases t with
    | field name =>
      have hname : first name = second name := h name (by simp [Token.references])
      have hrest := ih fun other ho => h other (List.mem_cons_of_mem name ho)
      simp [run, hname, hrest]
    | operator op =>
      match stack with
      | [] => rfl
      | [a] => rfl
      | b :: a :: below =>
        simp only [run]
        cases op.apply a b with
        | error e => rfl
        | ok v => exact ih h _
    | unknown symbol => rfl
    | number x => exact ih h _
    | text s => exact ih h _
    | left => exact ih h _
    | right => exact ih h _

theorem evaluateCode_congr {first second : Lookup} {code : List Token}
    (h : ∀ name ∈ Token.references code, first name = second name) :
    evaluateCode code first = evaluateCode code second := by
  match code, h with
  | [], _ => rfl
  | [t], h =>
    cases t with
    | field name =>
      have hname : first name = second name := h name (by simp [Token.references])
      simp [evaluateCode, runSingle, hname]
    | _ => rfl
  | t :: u :: ts, h => simp [evaluateCode, runOnStack, run_congr h]

theorem evaluate_of_no_references {f : Compiled} (h : Token.references f.code = [])
    (first second : Lookup) : evaluate f first = evaluate f second := by
  refine evaluateCode_congr fun name hname => ?_
  rw [h] at hname
  exact absurd hname List.not_mem_nil

theorem evaluate_congr {raw : String} {f : Compiled} (hf : compile raw = .ok f)
    {first second : Lookup} (h : ∀ name ∈ f.dependencies, first name = second name) :
    evaluate f first = evaluate f second :=
  evaluateCode_congr fun name hn => h name ((mem_dependencies hf name).mpr hn)

end FormulaTable.Formula
