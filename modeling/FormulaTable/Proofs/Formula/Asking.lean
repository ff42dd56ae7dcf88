import FormulaTable.Proofs.Formula.Grammar
import FormulaTable.Proofs.Formula.Steps

/-!
# The fields that a formula asks for

A formula asks for its fields in the order of its text and stops asking at the first error. The
fields it names are those its text refers to, so two rows that agree on them give it one result.
-/

namespace FormulaTable.Formula

variable {lookup : Lookup} {code : List Token}

theorem runSingle_asked (lookup : Lookup) (t : Token) :
    (runSingle lookup t).asked = Token.references [t] := by
  cases t with
  | field name => cases h : lookup name <;> simp [runSingle, h, Token.references]
  | _ => rfl

theorem runOnStack_asked (lookup : Lookup) (code : List Token) :
    (runOnStack lookup code).asked = (run lookup code []).asked := rfl

theorem evaluateCode_asked_initial (lookup : Lookup) (code : List Token) :
    (evaluateCode code lookup).asked <+: Token.references code := by
  rcases evaluateCode_cases lookup code with ⟨t, rfl, hr⟩ | hr
  · simp only [hr, runSingle_asked, List.prefix_rfl]
  · rw [hr, runOnStack_asked]
    exact run_asked_initial lookup code []

theorem evaluateCode_asked_of_ok {v : Value} (h : (evaluateCode code lookup).result = .ok v) :
    (evaluateCode code lookup).asked = Token.references code := by
  rcases evaluateCode_cases lookup code with ⟨t, rfl, hr⟩ | hr
  · rw [hr, runSingle_asked]
  · rw [hr] at h ⊢
    rcases runOnStack_cases lookup code with ⟨e, -, hs⟩ | ⟨stack, hrun, -⟩
    · rw [hs] at h
      cases h
    · rw [runOnStack_asked, run_asked_of_ok hrun]

theorem mem_references {name : String} {ts : List Token} :
    name ∈ Token.references ts ↔ .field name ∈ ts := by
  unfold Token.references
  rw [List.mem_filterMap]
  constructor
  · rintro ⟨t, ht, hname⟩
    cases t with
    | field other =>
      cases hname
      exact ht
    | _ => cases hname
  · intro h
    exact ⟨.field name, h, rfl⟩

theorem compile_references {raw : String} {f : Compiled} (h : compile raw = .ok f) :
    ∃ ts, Lexed ts (normalize raw).toList ∧ Token.references f.code = Token.references ts := by
  obtain ⟨ts, hts, hcode, -, -⟩ := compile_eq_ok h
  exact ⟨ts, lexed_of_tokens hts, reorder_references hcode⟩

/-- The result depends on the named fields only. They are asked for in the order of the text,
all of them unless an error comes first, and each is a token of the compiled form. -/
theorem compile_reads {raw : String} {f : Compiled} (h : compile raw = .ok f) :
    (∀ first second : Lookup, (∀ name ∈ f.dependencies, first name = second name) →
      evaluate f first = evaluate f second) ∧
    (∃ ts, Lexed ts (normalize raw).toList ∧ ∀ lookup,
      (evaluate f lookup).asked <+: Token.references ts ∧
      ∀ v, (evaluate f lookup).result = .ok v →
        (evaluate f lookup).asked = Token.references ts) ∧
    ∀ name, name ∈ f.dependencies ↔ .field name ∈ f.code := by
  refine ⟨fun first second => evaluate_congr h, ?_, ?_⟩
  · obtain ⟨ts, hlexed, hreferences⟩ := compile_references h
    refine ⟨ts, hlexed, fun lookup => ?_⟩
    rw [← hreferences]
    exact ⟨evaluateCode_asked_initial lookup f.code, fun v => evaluateCode_asked_of_ok⟩
  · intro name
    rw [mem_dependencies h, mem_references]

theorem compile_reads_twice :
    let code : List Token :=
      [.field "A", .field "B", .field "A", .operator .mul, .operator .add]
    let f : Compiled := ⟨"{A} + {B}*{A}", code, ["A", "B"]⟩
    compile "{A} + {B}*{A}" = .ok f ∧
      (∀ first second : Lookup, first "A" = second "A" → first "B" = second "B" →
        evaluate f first = evaluate f second) ∧
      .field "B" ∈ f.code := by
  intro code f
  have h : compile "{A} + {B}*{A}" = .ok f := by decide +kernel
  obtain ⟨hcongr, -, hfields⟩ := compile_reads h
  refine ⟨h, ?_, ?_⟩
  · intro first second hA hB
    refine hcongr first second fun name hname => ?_
    have hcases : name = "A" ∨ name = "B" := by simpa [f] using hname
    rcases hcases with rfl | rfl
    · exact hA
    · exact hB
  · exact (hfields "B").mp (by decide)

end FormulaTable.Formula
