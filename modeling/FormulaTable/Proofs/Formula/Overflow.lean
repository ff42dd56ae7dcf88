import FormulaTable.Proofs.Double.Whole
import FormulaTable.Proofs.Formula.Kind

/-!
# Overflow

Of finite numbers an operator can make an infinity or a NaN. Nothing else brings one into a run: the
literals of a formula are finite, and so are the numbers of texts and of fields. As the last value
it is reported. A sum with a text does not look at the number, and writes it.
-/

namespace FormulaTable

inductive Cell.Holds (x : Float) : Cell → Prop
  | number : Holds x (.number x)
  | item {items : List Cell} {c : Cell} (hc : c ∈ items) (h : Holds x c) : Holds x (.list items)
  | key {entries : List (Cell × Cell)} {k c : Cell} (hc : (k, c) ∈ entries) (h : Holds x k) :
      Holds x (.mapping entries)
  | value {entries : List (Cell × Cell)} {k c : Cell} (hc : (k, c) ∈ entries) (h : Holds x c) :
      Holds x (.mapping entries)

namespace Formula

inductive Operand.Writes (x : Float) : Operand → Prop
  | number : Writes x (.number x)
  | held {c : Cell} (h : c.Holds x) : Writes x (.field c)
  | whole {n : Int} (h : Double.ofInt? n = some x) : Writes x (.field (.whole n))

def Lookup.HoldsFinite (lookup : Lookup) : Prop :=
  ∀ name c x, lookup name = some c → c.Holds x → x.isFinite = true

/-- The run comes to the operator with these two values on top of the stack. -/
def Applies (lookup : Lookup) (code : List Token) (op : Operator) (a b : Operand) : Prop :=
  ∃ before rest below, code = before ++ .operator op :: rest ∧
    (run lookup before []).result = .ok (b :: a :: below)

/-- An infinity or a NaN that an operator of the run makes of finite numbers, or of another one. -/
inductive Overflow (lookup : Lookup) (code : List Token) : Float → Prop
  | made {op : Operator} {a b : Operand} {x y z : Float} (h : Applies lookup code op a b)
      (ha : a.toNumber = .ok x) (hb : b.toNumber = .ok y) (hx : x.isFinite = true)
      (hy : y.isFinite = true) (hv : op.apply a b = .ok (.number z)) (hz : z.isFinite = false) :
      Overflow lookup code z
  | carried {op : Operator} {a b : Operand} {x z : Float} (h : Applies lookup code op a b)
      (hab : a = .number x ∨ b = .number x) (hx : Overflow lookup code x)
      (hv : op.apply a b = .ok (.number z)) (hz : z.isFinite = false) : Overflow lookup code z

inductive Shown (lookup : Lookup) (code : List Token) (o : Operand) : Prop
  | result {v : Value} (ho : (run lookup code []).result = .ok [o])
      (hv : (evaluateCode code lookup).result = .ok v)
  | left {b : Operand} (h : Applies lookup code .add o b) (hjoin : (o.isText || b.isText) = true)
  | right {a : Operand} (h : Applies lookup code .add a o) (hjoin : (a.isText || o.isText) = true)

/-- A sum joins the infinity or the NaN to a text. -/
def Leaks (lookup : Lookup) (code : List Token) (x : Float) : Prop :=
  x.isFinite = false ∧ ∃ s, Applies lookup code .add (.number x) (.text s) ∨
    Applies lookup code .add (.text s) (.number x)

section Operands
variable {op : Operator} {a b o : Operand} {x z : Float}

theorem Operand.eq_number_of_toNumber (h : o.toNumber = .ok x) (hx : x.isFinite = false) :
    o = .number x := by
  cases o with
  | number y =>
    cases h
    rfl
  | text s =>
    cases h
    rw [Cell.isFinite_numberOfText] at hx
    cases hx
  | field c =>
    rw [Cell.isFinite_toNumber h] at hx
    cases hx

theorem Operator.numbers_of_apply (h : op.apply a b = .ok (.number z)) :
    ∃ x y, a.toNumber = .ok x ∧ b.toNumber = .ok y := by
  have hnumbers {f : Float → Float → Float}
      (h : (onNumbers f a b).mapError EvalError.unusableOperand = .ok (.number z)) :
      ∃ x y, a.toNumber = .ok x ∧ b.toNumber = .ok y := by
    obtain ⟨x, y, hx, hy, -⟩ := onNumbers_eq_ok h
    exact ⟨x, y, hx, hy⟩
  cases op with
  | add =>
    rw [apply] at h
    split at h
    · cases kind_of_concat h
    · exact hnumbers h
  | sub => exact hnumbers h
  | mul => exact hnumbers h
  | div =>
    obtain ⟨x, y, hx, hy, -, -⟩ := div_eq_ok h
    exact ⟨x, y, hx, hy⟩

theorem Operand.toText_of_not_isFinite (hx : x.isFinite = false) :
    (Operand.number x).toText = .ok (String.ofList (Double.specialText x)) := by
  rw [toText, Double.canonicalText_of_not_isFinite hx, Double.naturalText, hx,
    if_neg Bool.false_ne_true]

end Operands

section Runs
variable {lookup : Lookup} {code : List Token} {t : Token} {op : Operator} {a b v : Operand}
  {x : Float} {stack after : List Operand}

theorem Applies.append (h : Applies lookup code op a b) (more : List Token) :
    Applies lookup (code ++ more) op a b := by
  obtain ⟨before, rest, below, rfl, hrun⟩ := h
  exact ⟨before, rest ++ more, below, List.append_assoc _ _ _, hrun⟩

theorem Overflow.append (h : Overflow lookup code x) (more : List Token) :
    Overflow lookup (code ++ more) x := by
  induction h with
  | made h ha hb hx hy hv hz => exact .made (h.append more) ha hb hx hy hv hz
  | carried h hab _ hv hz ih => exact .carried (h.append more) hab ih hv hz

theorem Overflow.isFinite_eq_false (h : Overflow lookup code x) : x.isFinite = false := by
  cases h <;> assumption

inductive Arises (lookup : Lookup) (code : List Token) : Operand → Prop
  | finite {x : Float} (hx : x.isFinite = true) : Arises lookup code (.number x)
  | overflow {x : Float} (hx : Overflow lookup code x) : Arises lookup code (.number x)
  | text (s : String) : Arises lookup code (.text s)
  | field {name : String} {c : Cell} (h : lookup name = some c) : Arises lookup code (.field c)

theorem Arises.append (h : Arises lookup code v) (more : List Token) :
    Arises lookup (code ++ more) v := by
  cases h with
  | finite hx => exact .finite hx
  | overflow hx => exact .overflow (hx.append more)
  | text s => exact .text s
  | field h => exact .field h

theorem Arises.overflow_of (h : Arises lookup code (.number x)) (hx : x.isFinite = false) :
    Overflow lookup code x := by
  cases h with
  | finite hfinite =>
    rw [hx] at hfinite
    cases hfinite
  | overflow hx => exact hx

theorem Arises.apply (h : Applies lookup code op a b) (ha : Arises lookup code a)
    (hb : Arises lookup code b) (hv : op.apply a b = .ok v) : Arises lookup code v := by
  cases v with
  | text s => exact .text s
  | field c =>
    have hkind := Operator.kind_of_apply hv
    unfold Operator.kindOn at hkind
    split at hkind <;> cases hkind
  | number z =>
    cases hz : z.isFinite with
    | true => exact .finite hz
    | false =>
      refine .overflow ?_
      obtain ⟨x, y, hx, hy⟩ := Operator.numbers_of_apply hv
      -- An operand that counts as an infinity or a NaN is a number, and so an overflow itself.
      cases hxf : x.isFinite with
      | false =>
        obtain rfl := Operand.eq_number_of_toNumber hx hxf
        exact .carried h (.inl rfl) (ha.overflow_of hxf) hv hz
      | true =>
        cases hyf : y.isFinite with
        | false =>
          obtain rfl := Operand.eq_number_of_toNumber hy hyf
          exact .carried h (.inr rfl) (hb.overflow_of hyf) hv hz
        | true => exact .made h hx hy hxf hyf hv hz

theorem Step.arises (h : Step lookup t stack after)
    (hrun : (run lookup code []).result = .ok stack) (ht : ∀ x, t = .number x → x.isFinite = true)
    (hstack : ∀ v ∈ stack, Arises lookup code v) :
    ∀ v ∈ after, Arises lookup (code ++ [t]) v := by
  have hkept : ∀ v ∈ stack, Arises lookup (code ++ [t]) v := fun v hv => (hstack v hv).append [t]
  cases h with
  | number x _ => exact List.forall_mem_cons.mpr ⟨.finite (ht x rfl), hkept⟩
  | text s _ => exact List.forall_mem_cons.mpr ⟨.text s, hkept⟩
  | field hc _ => exact List.forall_mem_cons.mpr ⟨.field hc, hkept⟩
  | @operator op a b v hop below =>
    obtain ⟨hb, hrest⟩ := List.forall_mem_cons.mp hkept
    obtain ⟨ha, hbelow⟩ := List.forall_mem_cons.mp hrest
    have happlies : Applies lookup (code ++ [.operator op]) op a b := ⟨code, [], below, rfl, hrun⟩
    exact List.forall_mem_cons.mpr ⟨.apply happlies ha hb hop, hbelow⟩
  | left _ => exact hkept
  | right _ => exact hkept

theorem arises_of_run (hc : ∀ x, .number x ∈ code → x.isFinite = true)
    (h : (run lookup code []).result = .ok stack) : ∀ v ∈ stack, Arises lookup code v := by
  induction code using List.reverseRecOn generalizing stack with
  | nil =>
    cases h
    nofun
  | append_singleton code t ih =>
    obtain ⟨reached, hrun, hstep⟩ := exists_step_of_run_concat h
    refine hstep.arises hrun (fun x ht => hc x (by simp [ht])) (ih (fun x hx => ?_) hrun)
    exact hc x (List.mem_append_left [t] hx)

theorem Applies.arises (h : Applies lookup code op a b)
    (hc : ∀ x, .number x ∈ code → x.isFinite = true) :
    Arises lookup code a ∧ Arises lookup code b := by
  obtain ⟨before, rest, below, rfl, hrun⟩ := h
  have hstack := arises_of_run (fun x hx => hc x (List.mem_append_left _ hx)) hrun
  exact ⟨(hstack a (by simp)).append _, (hstack b (by simp)).append _⟩

theorem result_of_number (hc : ∀ x, .number x ∈ code → x.isFinite = true)
    (h : (run lookup code []).result = .ok [.number x]) :
    (evaluateCode code lookup).result =
      if x.isFinite then .ok (.number x) else .error .notFinite := by
  rcases evaluateCode_cases lookup code with ⟨t, rfl, hr⟩ | hr
  · rcases run_cons_cases lookup t [] [] with ⟨after, hstep, hrun⟩ | ⟨e, -, hrun⟩
    · rw [hrun] at h
      cases h
      cases hstep
      rw [hr, hc x List.mem_cons_self, if_pos rfl]
      rfl
    · rw [hrun] at h
      cases h
  · rcases runOnStack_cases lookup code with ⟨e, hrun, -⟩ | ⟨stack, hrun, hs⟩
    · rw [hrun] at h
      cases h
    · rw [hrun] at h
      cases h
      rw [hr, hs]
      rfl

theorem Stop.ne_notFinite {e : EvalError} (h : Stop lookup t stack e) : e ≠ .notFinite := by
  rintro rfl
  cases h with
  | refused hop _ => cases Operator.isFailure_of_apply hop

theorem showText_ne_notFinite (r : Except CellError String) :
    (r.map Value.text).mapError EvalError.unshowable ≠ .error .notFinite := by
  intro h
  cases r <;> cases h

theorem number_of_notFinite (h : (evaluateCode code lookup).result = .error .notFinite) :
    ∃ x, (run lookup code []).result = .ok [.number x] ∧ x.isFinite = false := by
  rcases evaluateCode_cases lookup code with ⟨t, rfl, hr⟩ | hr
  · rw [hr] at h
    unfold runSingle at h
    split at h
    · cases h
    · cases h
    · split at h
      · exact absurd h (showText_ne_notFinite _)
      · cases h
    · cases h
  · rcases runOnStack_cases lookup code with ⟨e, hrun, hs⟩ | ⟨stack, hrun, hs⟩
    · rw [hr, hs] at h
      cases h
      obtain ⟨t, -, reached, hstop⟩ := exists_stop hrun
      exact absurd rfl hstop.ne_notFinite
    · rw [hr, hs] at h
      have hfinish : finish stack = .error .notFinite := h
      unfold finish at hfinish
      split at hfinish
      · next x =>
        split at hfinish
        · cases hfinish
        · next hx => exact ⟨x, hrun, Bool.eq_false_iff.mpr hx⟩
      · cases hfinish
      · exact absurd hfinish (showText_ne_notFinite _)
      · cases hfinish

theorem Outcome.eq_notFinite_iff {r : Except EvalError Value} :
    ofResult r = ofResult (.error .notFinite) ↔ r = .error .notFinite := by
  refine ⟨fun h => ?_, fun h => h ▸ rfl⟩
  have hkind : (ofResult r).errorKind = some .notFinite := by rw [h]; rfl
  obtain ⟨e, rfl, he⟩ := errorKind_ofResult hkind
  cases e with
  | notFinite => rfl
  | _ => cases he

theorem Applies.joins (h : Applies lookup code .add a b) (hjoin : (a.isText || b.isText) = true) :
    Joins lookup code := by
  obtain ⟨before, rest, below, rfl, hrun⟩ := h
  exact ⟨before, rest, a, b, below, rfl, hrun, hjoin⟩

theorem Leaks.shown (h : Leaks lookup code x) : Shown lookup code (.number x) := by
  obtain ⟨-, s, h | h⟩ := h
  · exact .left h rfl
  · exact .right h rfl

theorem Leaks.joins (h : Leaks lookup code x) : Joins lookup code := by
  obtain ⟨-, s, h | h⟩ := h
  · exact h.joins rfl
  · exact h.joins rfl

theorem Shown.arises {o : Operand} (h : Shown lookup code o)
    (hc : ∀ x, .number x ∈ code → x.isFinite = true) : Arises lookup code o := by
  cases h with
  | result ho _ => exact arises_of_run hc ho o List.mem_cons_self
  | left h _ => exact (h.arises hc).1
  | right h _ => exact (h.arises hc).2

theorem Shown.leaks (h : Shown lookup code (.number x))
    (hc : ∀ x, .number x ∈ code → x.isFinite = true) (hx : x.isFinite = false) :
    Leaks lookup code x := by
  cases h with
  | result ho hv =>
    rw [result_of_number hc ho, hx, if_neg Bool.false_ne_true] at hv
    cases hv
  | @left b h hjoin =>
    cases b with
    | text s => exact ⟨hx, s, .inl h⟩
    | _ => cases hjoin
  | @right a h hjoin =>
    cases a with
    | text s => exact ⟨hx, s, .inr h⟩
    | _ => cases hjoin

theorem Arises.eq_number {o : Operand} (h : Arises lookup code o) (hrow : Lookup.HoldsFinite lookup)
    (hw : o.Writes x) (hx : x.isFinite = false) : o = .number x := by
  cases hw with
  | number => rfl
  | held hholds =>
    cases h with
    | field hc =>
      rw [hrow _ _ x hc hholds] at hx
      cases hx
  | whole hn =>
    rw [Double.isFinite_ofInt? hn] at hx
    cases hx

end Runs

theorem holdsFinite_single {name : String} {x : Float} (hx : x.isFinite = true) :
    Lookup.HoldsFinite fun other => some (if other = name then .number x else .empty) := by
  intro other c y hc hholds
  cases hc
  split at hholds
  · cases hholds
    exact hx
  · cases hholds

/-- Every number that an evaluation turns into text is finite, except where a sum joins an infinity
or a NaN to a text. Such a number is written as it is; it takes an operator that overflows and a
text in the formula. In a result there is none: an overflow that comes out as the last value is
reported, and nothing else is reported so. -/
theorem shown_isFinite {raw : String} {f : Compiled} (h : compile raw = .ok f) {lookup : Lookup}
    (hrow : Lookup.HoldsFinite lookup) :
    (∀ o x, Shown lookup f.code o → o.Writes x →
      (x.isFinite = false ↔ o = .number x ∧ Leaks lookup f.code x)) ∧
      (∀ x, Leaks lookup f.code x → Shown lookup f.code (.number x) ∧
        (Operand.number x).toText = .ok (String.ofList (Double.specialText x)) ∧
        Overflow lookup f.code x ∧ ∃ s, .text s ∈ f.code) ∧
      (∀ o v x, (run lookup f.code []).result = .ok [o] → (evaluate f lookup).result = .ok v →
        v = .number x ∨ o.Writes x → x.isFinite = true) ∧
      (Outcome.ofResult (evaluate f lookup).result = .ofResult (.error .notFinite) ↔
        ∃ x, (run lookup f.code []).result = .ok [.number x] ∧ Overflow lookup f.code x) := by
  have hc := compile_isFinite h
  refine ⟨fun o x hshown hw => ⟨fun hx => ?_, fun hleak => hleak.2.1⟩, fun x hleak => ?_,
    fun o v x ho hv hwritten => ?_, ?_⟩
  · obtain rfl := (hshown.arises hc).eq_number hrow hw hx
    exact ⟨rfl, hshown.leaks hc hx⟩
  · have harises := hleak.shown.arises hc
    refine ⟨hleak.shown, Operand.toText_of_not_isFinite hleak.1, harises.overflow_of hleak.1, ?_⟩
    by_contra hno
    exact not_joins (fun s hs => hno ⟨s, hs⟩) lookup hleak.joins
  · rcases hwritten with rfl | hw
    · exact evaluate_isFinite h hv
    · by_contra hinfinite
      have hx : x.isFinite = false := Bool.eq_false_iff.mpr hinfinite
      have harises := arises_of_run hc ho o List.mem_cons_self
      obtain rfl := harises.eq_number hrow hw hx
      rw [evaluate, result_of_number hc ho, if_neg hinfinite] at hv
      cases hv
  · rw [Outcome.eq_notFinite_iff]
    constructor
    · intro he
      obtain ⟨x, hrun, hx⟩ := number_of_notFinite he
      have harises := arises_of_run hc hrun _ List.mem_cons_self
      exact ⟨x, hrun, harises.overflow_of hx⟩
    · rintro ⟨x, hrun, hx⟩
      rw [evaluate, result_of_number hc hrun, hx.isFinite_eq_false, if_neg Bool.false_ne_true]

theorem shown_isFinite_product :
    let large : Float := Float.ofBits 0x7FE1CCF385EBC8A0
    let lookup : Lookup := fun name => some (if name = "A" then .number large else .empty)
    let f : Compiled :=
      ⟨"\x7bA\x7d * \x7bA\x7d", [.field "A", .field "A", .operator .mul], ["A"]⟩
    compile "\x7bA\x7d * \x7bA\x7d" = .ok f ∧ Lookup.HoldsFinite lookup ∧
      Outcome.ofResult (evaluate f lookup).result =
        ⟨"#ERR", .text, none, some "Formula result is not a finite number", some .notFinite⟩ ∧
      ∃ x, (run lookup f.code []).result = .ok [.number x] ∧ Overflow lookup f.code x := by
  intro large lookup f
  have hcompile : compile "\x7bA\x7d * \x7bA\x7d" = .ok f := by decide +kernel
  have hrow : Lookup.HoldsFinite lookup := holdsFinite_single (by decide)
  have hreported : Outcome.ofResult (evaluate f lookup).result = .ofResult (.error .notFinite) :=
    by decide +kernel
  exact ⟨hcompile, hrow, hreported, (shown_isFinite hcompile hrow).2.2.2.mp hreported⟩

/-- The same product is written as an infinity where a text is joined to it. -/
theorem shown_isFinite_joined :
    let large : Float := Float.ofBits 0x7FE1CCF385EBC8A0
    let lookup : Lookup := fun name => some (if name = "A" then .number large else .empty)
    let f : Compiled := ⟨"\x7bA\x7d * \x7bA\x7d + \"x\"",
      [.field "A", .field "A", .operator .mul, .text "x", .operator .add], ["A"]⟩
    compile "\x7bA\x7d * \x7bA\x7d + \"x\"" = .ok f ∧ Lookup.HoldsFinite lookup ∧
      Outcome.ofResult (evaluate f lookup).result = ⟨"infx", .text, none, none, none⟩ ∧
      ∃ x, Shown lookup f.code (.number x) ∧ x.isFinite = false := by
  intro large lookup f
  have hcompile : compile "\x7bA\x7d * \x7bA\x7d + \"x\"" = .ok f := by decide +kernel
  have hrow : Lookup.HoldsFinite lookup := holdsFinite_single (by decide)
  have hlarge : (Operand.field (.number large)).toNumber = .ok large := by decide +kernel
  have hproduct : Operator.mul.apply (.field (.number large)) (.field (.number large)) =
      .ok (.number (large * large)) := by
    simp only [Operator.apply, Operator.onNumbers, hlarge, bind, Except.bind, Except.mapError]
  have hjoined : Applies lookup f.code .add (.number (large * large)) (.text "x") := by
    refine ⟨[.field "A", .field "A", .operator .mul, .text "x"], [], [], rfl, ?_⟩
    simp [run, lookup, Run.after, hproduct]
  exact ⟨hcompile, hrow, by decide +kernel, large * large, .left hjoined rfl, by decide +kernel⟩

end Formula
end FormulaTable
