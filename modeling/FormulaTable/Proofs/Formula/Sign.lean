import FormulaTable.Proofs.Formula.Sentence

/-!
# What a sign binds

A sign binds no tighter than a subtraction: behind an operator its zero belongs to what is before,
and the product that follows is subtracted as a whole. So a sign binds to its operand alone only at
the front of a formula or a group, where no product follows.
-/

namespace FormulaTable.Formula

/-- What may follow the operand of a sign: it takes nothing away from the sign. -/
def Loose : List Token → Prop
  | [] | .right :: _ => True
  | .operator op :: _ => (Token.operator op).isSign = true
  | _ => False

/-- `Respelled ts us`: at the front of `ts`, or of a group in it, a sign is dropped before another
one, or a sign and its operand are put in parentheses, with a zero. -/
inductive Respelled : List Token → List Token → Prop
  | bracket {op : Operator} {ts rest : List Token} (hs : (Token.operator op).isSign = true)
      (h : Phrase .primary ts) (hl : Loose rest) :
      Respelled (.operator op :: (ts ++ rest))
        (.left :: .number 0 :: .operator op :: (ts ++ .right :: rest))
  | drop {first second : Operator} (hf : (Token.operator first).isSign = true)
      (hs : (Token.operator second).isSign = true) (rest : List Token) :
      Respelled (.operator first :: .operator second :: rest) (.operator second :: rest)
  | inside (before : List Token) {ts us : List Token} (h : Respelled ts us) :
      Respelled (before ++ .left :: ts) (before ++ .left :: us)

/-- `Shortened code short`: the codes are the same, or a zero that is added to a zero or subtracted
from it is left out. -/
inductive Shortened : List Token → List Token → Prop
  | refl (code : List Token) : Shortened code code
  | zero {op : Operator} (hs : (Token.operator op).isSign = true) (before after : List Token) :
      Shortened (before ++ .number 0 :: .number 0 :: .operator op :: after)
        (before ++ .number 0 :: after)

theorem Shortened.append_left {code short : List Token} (h : Shortened code short)
    (out : List Token) : Shortened (out ++ code) (out ++ short) := by
  cases h with
  | refl => exact .refl _
  | zero hs before after =>
    rw [← List.append_assoc, ← List.append_assoc]
    exact .zero hs (out ++ before) after

theorem Shortened.ne_nil {code short : List Token} (h : Shortened code short) (hc : code ≠ []) :
    short ≠ [] := by
  cases h with
  | refl => exact hc
  | zero hs before after => simp

theorem apply_zeros {op : Operator} (hs : (Token.operator op).isSign = true) :
    op.apply (.number 0) (.number 0) = .ok (.number 0) := by
  have hadd : (0 : Float) + 0 = 0 := by decide +kernel
  have hsub : (0 : Float) - 0 = 0 := by decide +kernel
  cases op with
  | add => exact congrArg (fun x => Except.ok (Operand.number x)) hadd
  | sub => exact congrArg (fun x => Except.ok (Operand.number x)) hsub
  | mul => cases hs
  | div => cases hs

theorem Shortened.run_eq {code short : List Token} (h : Shortened code short) (lookup : Lookup)
    (stack : List Operand) : run lookup short stack = run lookup code stack := by
  cases h with
  | refl => rfl
  | zero hs before after =>
    rw [run_append, run_append]
    refine congrArg (run lookup before stack >>= ·) (funext fun reached => ?_)
    simp [run, apply_zeros hs]

theorem evaluateCode_zero (lookup : Lookup) (before after : List Token) :
    evaluateCode (before ++ .number 0 :: after) lookup =
      runOnStack lookup (before ++ .number 0 :: after) := by
  rcases evaluateCode_cases lookup (before ++ .number 0 :: after) with ⟨t, ht, -⟩ | h
  · have hlen := congrArg List.length ht
    simp only [List.length_append, List.length_cons, List.length_nil] at hlen
    obtain rfl := List.eq_nil_of_length_eq_zero (by omega : before.length = 0)
    obtain rfl := List.eq_nil_of_length_eq_zero (by omega : after.length = 0)
    have hzero : (0 : Float).isFinite = true := by decide +kernel
    simp [evaluateCode, runSingle, runOnStack, run, finish, hzero, Except.bind]
  · exact h

theorem Shortened.evaluateCode_eq {code short : List Token} (h : Shortened code short)
    (lookup : Lookup) : evaluateCode short lookup = evaluateCode code lookup := by
  cases h with
  | refl => rfl
  | zero hs before after =>
    rw [evaluateCode_zero, evaluateCode_zero, runOnStack, runOnStack,
      (Shortened.zero hs before after).run_eq]

theorem below_three (waiting : List Pending) : Below 3 waiting := by
  obtain _ | ⟨op | _, waiting⟩ := waiting
  · trivial
  · rcases op.precedence_eq_one_or_two with hp | hp <;> simp [Below, hp]
  · trivial

theorem Phrase.exists_out {ts : List Token} (h : Phrase .primary ts) :
    ∃ out, ∀ waiting rest,
      reorder waiting true (ts ++ rest) = emit out (reorder waiting false rest) := by
  obtain ⟨zs, ⟨e, he⟩, hzeros⟩ := h.exists_zeros
  refine ⟨e.postorder, fun waiting rest => ?_⟩
  obtain ⟨out, ops, hops, hout, hr⟩ :=
    reorder_of_written (he 3) (below_three waiting) true (withZeros false rest)
  obtain _ | ⟨op, ops⟩ := ops
  · rw [List.map_nil, List.append_nil] at hout
    rw [← reorder_withZeros, hzeros, hr, hout, List.map_nil, List.nil_append, reorder_withZeros]
  · have hop := hops op List.mem_cons_self
    rcases op.precedence_eq_one_or_two with hp | hp <;> omega

theorem precedence_of_isSign {op : Operator} (hs : (Token.operator op).isSign = true) :
    op.precedence = 1 := by
  cases op with
  | add => rfl
  | sub => rfl
  | mul => cases hs
  | div => cases hs

theorem reorder_loose {op : Operator} {rest : List Token} (hl : Loose rest)
    (waiting : List Pending) :
    reorder (.operator op :: waiting) false rest =
      emit [.operator op] (reorder waiting false rest) := by
  obtain _ | ⟨t, rest⟩ := rest
  · rfl
  · cases t with
    | right =>
      rw [reorder_cons, reorder_cons, advance, advance, releaseParen]
      cases releaseParen waiting with
      | error e => rfl
      | ok released =>
        exact (emit_emit [.operator op] released.1 (reorder released.2 false rest)).symm
    | operator next =>
      have hp : next.precedence = 1 := precedence_of_isSign hl
      have hop : ¬ op.precedence < 1 := by
        rcases op.precedence_eq_one_or_two with h | h <;> omega
      rw [reorder_between, reorder_between, hp, releaseTo, if_neg hop]
      exact (emit_emit [.operator op] _ _).symm
    | _ => cases hl

theorem releaseTo_below {precedence : Nat} {waiting : List Pending}
    (hw : Below precedence waiting) : releaseTo precedence waiting = ([], waiting) :=
  releaseTo_append (List.forall_mem_nil _) hw

theorem reorder_sign_release {op : Operator} (hs : (Token.operator op).isSign = true)
    (waiting : List Pending) (rest : List Token) :
    reorder waiting true (.operator op :: rest) =
      emit (.number 0 :: (releaseTo 1 waiting).1)
        (reorder (.operator op :: (releaseTo 1 waiting).2) true rest) := by
  rw [reorder_sign hs, reorder_leaf (.number 0), reorder_between,
    precedence_of_isSign hs, emit_emit]
  rfl

theorem reorder_bracket {op : Operator} {ts rest : List Token}
    (hs : (Token.operator op).isSign = true) (h : Phrase .primary ts) (hl : Loose rest) {waiting : List Pending} (hw : Below 1 waiting) :
    reorder waiting true (.left :: .number 0 :: .operator op :: (ts ++ .right :: rest)) =
      reorder waiting true (.operator op :: (ts ++ rest)) := by
  obtain ⟨out, hout⟩ := h.exists_out
  have hparen : Below 1 (.paren :: waiting) := trivial
  calc reorder waiting true (.left :: .number 0 :: .operator op :: (ts ++ .right :: rest))
      = reorder (.paren :: waiting) true (.operator op :: (ts ++ .right :: rest)) := by
        rw [reorder_sign hs, reorder]
    _ = emit [.number 0] (emit out (emit [.operator op] (reorder waiting false rest))) := by
        rw [reorder_sign_release hs, releaseTo_below hparen, hout]
        exact congrArg (fun r => emit [.number 0] (emit out r))
          (reorder_right [op] waiting false rest)
    _ = reorder waiting true (.operator op :: (ts ++ rest)) := by
        rw [reorder_sign_release hs, releaseTo_below hw, hout, reorder_loose hl]

theorem reorder_drop {first second : Operator} (hf : (Token.operator first).isSign = true)
    (hs : (Token.operator second).isSign = true) {waiting : List Pending} (hw : Below 1 waiting)
    (rest : List Token) :
    reorder waiting true (.operator first :: .operator second :: rest) =
      emit [.number 0, .number 0, .operator first]
        (reorder (.operator second :: waiting) true rest) := by
  have hrelease : releaseTo 1 (.operator first :: waiting) = ([.operator first], waiting) := by
    have hge : ∀ op ∈ [first], 1 ≤ op.precedence := by
      rintro op (_ | ⟨_, ⟨⟩⟩)
      exact (precedence_of_isSign hf).ge
    exact releaseTo_append hge hw
  rw [reorder_sign_release hf, releaseTo_below hw, reorder_sign_release hs, hrelease, emit_emit]
  rfl

theorem reorder_inside {ts us : List Token}
    (h : ∀ waiting code, reorder (.paren :: waiting) true ts = .ok code →
      ∃ short, reorder (.paren :: waiting) true us = .ok short ∧ Shortened code short)
    (before : List Token) {waiting : List Pending} {operandDue : Bool} {code : List Token}
    (hr : reorder waiting operandDue (before ++ .left :: ts) = .ok code) :
    ∃ short, reorder waiting operandDue (before ++ .left :: us) = .ok short ∧
      Shortened code short := by
  induction before generalizing waiting operandDue code with
  | nil => exact h waiting code hr
  | cons t before ih =>
    obtain ⟨a, tail, ha, ht, rfl⟩ := reorder_cons_eq_ok hr
    obtain ⟨short, hshort, hc⟩ := ih ht
    refine ⟨a.out ++ short, ?_, hc.append_left a.out⟩
    rw [List.cons_append, reorder_cons, ha]
    exact congrArg (emit a.out) hshort

theorem reorder_respelled {ts us : List Token} (h : Respelled ts us) {waiting : List Pending}
    (hw : Below 1 waiting) {code : List Token} (hr : reorder waiting true ts = .ok code) :
    ∃ short, reorder waiting true us = .ok short ∧ Shortened code short := by
  induction h generalizing waiting code with
  | bracket hs h hl => exact ⟨code, by rw [reorder_bracket hs h hl hw, hr], .refl code⟩
  | drop hf hs rest =>
    rw [reorder_drop hf hs hw] at hr
    obtain ⟨tail, ht, rfl⟩ := emit_eq_ok hr
    refine ⟨.number 0 :: tail, ?_, .zero hf [] tail⟩
    rw [reorder_sign_release hs, releaseTo_below hw, ht]
    rfl
  | inside before _ ih => exact reorder_inside (fun _ _ => ih (by trivial)) before hr

theorem postfixOf_respelled {ts us code : List Token} (h : Relation.ReflTransGen Respelled ts us)
    (hc : postfixOf ts = .ok code) (hne : code ≠ []) :
    ∃ short, postfixOf us = .ok short ∧ short ≠ [] ∧
      ∀ lookup, evaluateCode short lookup = evaluateCode code lookup := by
  induction h with
  | refl => exact ⟨code, hc, hne, fun lookup => rfl⟩
  | tail _ hrespelled ih =>
    obtain ⟨reached, hr, hne', heval⟩ := ih
    have hnone : Below 1 [] := trivial
    obtain ⟨short, hs, hshort⟩ := reorder_respelled hrespelled hnone hr
    exact ⟨short, hs, hshort.ne_nil hne', fun lookup => by
      rw [hshort.evaluateCode_eq, heval]⟩

/-- A sentence has the value of the formula with a zero before each of its signs, where the signs
are operators like the others. At the front of the formula or of a group only the last of its signs
counts, and it may be put in parentheses with its operand where no product follows. -/
theorem evaluate_signs {raw : String} {ts : List Token} (hts : tokens (normalize raw) = .ok ts)
    (h : Phrase .sentence ts) :
    ∃ (e : Tree) (f : Compiled), e.Written 0 (withZeros true ts) ∧ compile raw = .ok f ∧
      f.code = e.postorder ∧
      ∀ (raw' : String) (us : List Token), tokens (normalize raw') = .ok us →
        us = withZeros true ts ∨ Relation.ReflTransGen Respelled ts us →
        ∃ f', compile raw' = .ok f' ∧ ∀ lookup, evaluate f' lookup = evaluate f lookup := by
  obtain ⟨e, he⟩ := h.exists_written
  have hcode : postfixOf ts = .ok e.postorder := by
    rw [← postfixOf_withZeros]
    exact postfixOf_of_written he
  refine ⟨e, _, he, compile_of_tokens hts hcode e.postorder_ne_nil, rfl, ?_⟩
  rintro raw' us hus (rfl | hrespelled)
  · rw [← postfixOf_withZeros] at hcode
    exact ⟨_, compile_of_tokens hus hcode e.postorder_ne_nil, fun lookup => rfl⟩
  · obtain ⟨short, hshort, hne, heval⟩ := postfixOf_respelled hrespelled hcode e.postorder_ne_nil
    exact ⟨_, compile_of_tokens hus hshort hne, heval⟩

/-- The first of three signs is dropped and the second one put in parentheses; the third one stands
behind a product, which ends before it. -/
theorem evaluate_signs_front :
    let raw := "--{A} + 5 * -2"
    let ts : List Token := [.operator .sub, .operator .sub, .field "A", .operator .add, .number 5,
      .operator .mul, .operator .sub, .number 2]
    tokens (normalize raw) = .ok ts ∧ Phrase .sentence ts ∧
      ∃ f, compile raw = .ok f ∧
        (∃ f', compile "0 - 0 - {A} + 5 * 0 - 2" = .ok f' ∧
          ∀ lookup, evaluate f' lookup = evaluate f lookup) ∧
        ∃ f', compile "(0 - {A}) + 5 * -2" = .ok f' ∧
          ∀ lookup, evaluate f' lookup = evaluate f lookup := by
  intro raw ts
  have hts : tokens (normalize raw) = .ok ts := by decide +kernel
  have hA : Phrase .primary [.field "A"] := .operand (.field "A")
  have hfive : Phrase .term [.number 5] := .unsigned (.operand (.number 5))
  have htwo : Phrase .term [.operator .sub, .number 2] :=
    .signed rfl (.unsigned (.operand (.number 2)))
  have hs : Phrase .sentence ts :=
    .joined (.joined (.single (.signed rfl (.signed rfl (.unsigned hA)))) hfive) htwo
  obtain ⟨e, f, -, hf, -, hsame⟩ := evaluate_signs hts hs
  have hdrop : Respelled ts ts.tail := .drop rfl rfl _
  have hbracket := @Respelled.bracket .sub [.field "A"] (ts.drop 3) rfl hA rfl
  refine ⟨hts, hs, f, hf, hsame _ _ (by decide +kernel) (.inl rfl), ?_⟩
  exact hsame _ _ (by decide +kernel) (.inr (.tail (.single hdrop) hbracket))

/-- `Nested p ts us`: every sign of `ts` and its operand are put in parentheses, with a zero. -/
inductive Nested : Part → List Token → List Token → Prop
  | operand {e : Tree} {t : Token} (h : e.Leaf t) : Nested .primary [t] [t]
  | group {ts us : List Token} (h : Nested .sentence ts us) :
      Nested .primary (.left :: ts ++ [.right]) (.left :: us ++ [.right])
  | unsigned {ts us : List Token} (h : Nested .primary ts us) : Nested .term ts us
  | signed {op : Operator} {ts us : List Token} (hs : (Token.operator op).isSign = true)
      (h : Nested .term ts us) :
      Nested .term (.operator op :: ts) (.left :: .number 0 :: .operator op :: us ++ [.right])
  | single {ts us : List Token} (h : Nested .term ts us) : Nested .sentence ts us
  | joined {op : Operator} {ls ms rs us : List Token} (hl : Nested .sentence ls ms)
      (hr : Nested .term rs us) :
      Nested .sentence (ls ++ .operator op :: rs) (ms ++ .operator op :: us)

/-- Behind an operator a sign does not bind to its operand: `2 * -3` is `2 * 0 - 3`. -/
theorem evaluate_nested_product :
    let ts : List Token := [.number 2, .operator .mul, .operator .sub, .number 3]
    let us : List Token := [.number 2, .operator .mul, .left, .number 0, .operator .sub, .number 3,
      .right]
    let f : Compiled :=
      ⟨"2 * -3", [.number 2, .number 0, .operator .mul, .number 3, .operator .sub], []⟩
    let f' : Compiled :=
      ⟨"2 * (0 - 3)", [.number 2, .number 0, .number 3, .operator .sub, .operator .mul], []⟩
    tokens (normalize "2 * -3") = .ok ts ∧ tokens (normalize "2 * (0 - 3)") = .ok us ∧
      Phrase .sentence ts ∧ Nested .sentence ts us ∧
      compile "2 * -3" = .ok f ∧ compile "2 * (0 - 3)" = .ok f' ∧
      ∀ lookup, (evaluate f lookup).result = .ok (.number (-3)) ∧
        (evaluate f' lookup).result = .ok (.number (-6)) := by
  intro ts us f f'
  have hs : Phrase .sentence ts :=
    .joined (.single (.unsigned (.operand (.number 2))))
      (.signed rfl (.unsigned (.operand (.number 3))))
  have hn : Nested .sentence ts us :=
    .joined (.single (.unsigned (.operand (.number 2))))
      (.signed rfl (.unsigned (.operand (.number 3))))
  refine ⟨by decide +kernel, by decide +kernel, hs, hn, by decide +kernel, by decide +kernel, ?_⟩
  intro lookup
  have hsigned : (evaluate f fun _ => none).result = .ok (.number (-3)) := by decide +kernel
  have hnested : (evaluate f' fun _ => none).result = .ok (.number (-6)) := by decide +kernel
  rw [evaluate_of_no_references rfl lookup fun _ => none,
    evaluate_of_no_references rfl lookup fun _ => none]
  exact ⟨hsigned, hnested⟩

end FormulaTable.Formula
