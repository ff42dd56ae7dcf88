import FormulaTable.Proofs.Formula.Grammar
import FormulaTable.Proofs.Formula.Reading

/-!
# Why a text does not compile

Tokens that come out of a text have known operators only, and reordering these fails at a
parenthesis or at an operator where an operand is due. So every error of a formula's text is of one
of the kinds of faults.
-/

namespace FormulaTable.Formula

theorem lexeme_error {position : Nat} {c : Char} {rest : List Char} {e : CompileError}
    (h : lexeme position c rest = .error e) : ∃ k, e.kind? = some k := by
  unfold lexeme at h
  dsimp only at h
  repeat' split at h
  all_goals cases h
  all_goals exact ⟨_, rfl⟩

theorem scan_error {position : Nat} {s : List Char} {e : CompileError}
    (h : scan position s = .error e) : ∃ k, e.kind? = some k := by
  fun_induction scan position s with
  | case1 => cases h
  | case2 position c rest hc ih => exact ih h
  | case3 position c rest hc e' hl =>
    cases h
    exact lexeme_error hl
  | case4 position c rest hc t n hl ih => exact ih (map_eq_error h)

def Token.IsKnown (t : Token) : Prop := ∀ symbol, t ≠ .unknown symbol

theorem Lexeme.isKnown {t : Token} {w : List Char} (h : Lexeme t w) : t.IsKnown := by
  intro symbol he
  cases h <;> cases he

theorem Lexed.isKnown {ts : List Token} {s : List Char} (h : Lexed ts s) :
    ∀ t ∈ ts, t.IsKnown := by
  induction h with
  | nil => exact List.forall_mem_nil _
  | gap _ _ ih => exact ih
  | lexeme hw _ _ ih => exact List.forall_mem_cons.mpr ⟨hw.isKnown, ih⟩

inductive Misplaced : CompileError → Prop
  | paren : Misplaced .unmatchedParen
  | operator (op : Operator) : Misplaced (.unaryNotSupported (String.singleton op.symbol))

theorem releaseParen_error {waiting : List Pending} {e : CompileError}
    (h : releaseParen waiting = .error e) : Misplaced e := by
  induction waiting with
  | nil =>
    cases h
    exact .paren
  | cons p rest ih =>
    cases p with
    | paren => cases h
    | operator op =>
      rw [releaseParen] at h
      exact ih (map_eq_error h)

theorem releaseAll_error {waiting : List Pending} {e : CompileError}
    (h : releaseAll waiting = .error e) : Misplaced e := by
  induction waiting with
  | nil => cases h
  | cons p rest ih =>
    cases p with
    | paren =>
      cases h
      exact .paren
    | operator op =>
      rw [releaseAll] at h
      exact ih (map_eq_error h)

theorem advance_error {waiting : List Pending} {operandDue : Bool} {t : Token} {e : CompileError}
    (ht : t.IsKnown) (h : advance waiting operandDue t = .error e) : Misplaced e := by
  cases t with
  | right => exact releaseParen_error (map_eq_error (by rwa [advance] at h))
  | operator op =>
    rw [advance] at h
    split at h
    · cases h
      exact .operator op
    · cases h
  | unknown symbol => exact absurd rfl (ht symbol)
  | _ => cases h

theorem reorder_error {waiting : List Pending} {operandDue : Bool} {ts : List Token}
    {e : CompileError} (ht : ∀ t ∈ ts, t.IsKnown)
    (h : reorder waiting operandDue ts = .error e) : Misplaced e := by
  induction ts generalizing waiting operandDue with
  | nil => exact releaseAll_error h
  | cons t ts ih =>
    obtain ⟨hknown, hrest⟩ := List.forall_mem_cons.mp ht
    rw [reorder_cons] at h
    rcases bind_eq_error h with ha | ⟨a, -, hr⟩
    · exact advance_error hknown ha
    · exact ih hrest (map_eq_error hr)

theorem Misplaced.kind {e : CompileError} (h : Misplaced e) : ∃ k, e.kind? = some k := by
  cases h <;> exact ⟨_, rfl⟩

theorem compile_error {raw : String} {e : CompileError} (h : compile raw = .error e) :
    ∃ k, e.kind? = some k := by
  unfold compile at h
  dsimp only at h
  split at h
  · cases h
    exact ⟨_, rfl⟩
  · rcases bind_eq_error h with hts | ⟨ts, hts, h⟩
    · exact scan_error hts
    · rcases bind_eq_error h with hcode | ⟨code, -, h⟩
      · exact (reorder_error (lexed_of_tokens hts).isKnown hcode).kind
      · cases h

end FormulaTable.Formula
