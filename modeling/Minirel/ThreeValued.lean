-- SUMMARY: When a filter keeps exactly the rows on which its predicate is true in three-valued logic.
import Minirel.OperatorTrees
import Minirel.Lib.Kleene

/-!
# Three-valued logic

SQL evaluates a condition to true, false or unknown, and `evaluate` to something that is
true or not: a comparison with NULL is not. An unknown condition that is negated can come
out true that way. `leaks` says of which conditions it does.
-/

namespace Minirel

variable {e left right : Expr} {op : BinOp} {row : Row} {v : RowItem}

/-! ## The three-valued evaluation -/

/-- The truth value that a value has in a condition. -/
def RowItem.truth (v : RowItem) : Trilean := if v.isNone then .unknown else .ofBool v.truthy

/-- A truth value as a value. -/
def Trilean.toItem : Trilean → RowItem
  | true => .value (.bool .true)
  | false => .value (.bool .false)
  | unknown => .value .none

/-- What an expression evaluates to where NULL stands for unknown. -/
def sqlValue : Expr → Row → RowItem
  | .literal value, _ => .value value
  | .columnRef name table, row => (resolveColumn row name table).toOption.getD (.value .none)
  | .unaryOp .not operand, row => (sqlValue operand row).truth.not.toItem
  | .binaryOp .and left right, row => ((sqlValue left row).truth.and (sqlValue right row).truth).toItem
  | .binaryOp .or left right, row => ((sqlValue left row).truth.or (sqlValue right row).truth).toItem
  | .binaryOp op left right, row =>
    let left := sqlValue left row
    let right := sqlValue right row
    if left.isNone || right.isNone then .value .none
    else ((comparator op left right).toOption.elim .unknown .ofBool : Trilean).toItem
  | _, _ => .value .none

/-- The truth value of a condition. -/
def sqlTruth (e : Expr) (row : Row) : Trilean := (sqlValue e row).truth

/-! ## Unknown conditions that come out true -/

def Expr.isAtom : Expr → Bool
  | .literal _ | .columnRef .. => true
  | _ => false

/-- A value as an operand: an unknown condition is an operand that is true or false. -/
def operand (e : Expr) (row : Row) (leaked : Bool) : RowItem :=
  if (sqlValue e row).isNone && !e.isAtom then .value (.bool leaked) else sqlValue e row

/-- The condition is unknown and comes out true. -/
def leaks : Expr → Row → Bool
  | .unaryOp .not e, row => decide (sqlTruth e row = .unknown) && !leaks e row
  | .binaryOp .and left right, row =>
    leaks left row && (leaks right row || decide (sqlTruth right row = .true)) ||
      decide (sqlTruth left row = .true) && leaks right row
  | .binaryOp .or left right, row =>
    leaks left row && decide (sqlTruth right row ≠ .true) ||
      leaks right row && decide (sqlTruth left row ≠ .true)
  | .binaryOp op left right, row =>
    ((sqlValue left row).isNone || (sqlValue right row).isNone) &&
      let left := operand left row (leaks left row)
      let right := operand right row (leaks right row)
      !left.isNone && !right.isNone && decide (comparator op left right = .ok true)
  | _, _ => false

def BinOp.isLogical : BinOp → Bool
  | .and | .or => true
  | _ => false

/-- A condition over literals and columns of the row, whose comparisons are of values that
    compare. -/
inductive Proper (row : Row) : Expr → Prop where
  | literal (value : Value) : Proper row (.literal value)
  | columnRef {name : String} {table : Option String} {v : RowItem}
      (hresolve : resolveColumn row name table = .ok v) : Proper row (.columnRef name table)
  | not {e : Expr} (he : Proper row e) : Proper row (.unaryOp .not e)
  | and {left right : Expr} (hleft : Proper row left) (hright : Proper row right) :
      Proper row (.binaryOp .and left right)
  | or {left right : Expr} (hleft : Proper row left) (hright : Proper row right) :
      Proper row (.binaryOp .or left right)
  | comparison {op : BinOp} {left right : Expr} (hop : op.isLogical = false)
      (hleft : Proper row left) (hright : Proper row right)
      (hcompare : ∀ a b, evaluate left row = .ok a → evaluate right row = .ok b →
        a.isNone = false → b.isNone = false → ∃ c, comparator op a b = .ok c) :
      Proper row (.binaryOp op left right)

@[simp] theorem Trilean.truth_toItem (t : Trilean) : t.toItem.truth = t := by
  cases t <;> rfl

@[simp] theorem Trilean.isNone_toItem (t : Trilean) : t.toItem.isNone = decide (t = .unknown) := by
  cases t <;> rfl

theorem RowItem.truth_of_isNone (h : v.isNone = true) : v.truth = .unknown := if_pos h

theorem leaks_of_isAtom (h : e.isAtom = true) : leaks e row = false := by
  cases e with
  | literal value => rfl
  | columnRef name table => rfl
  | _ => cases h

section
variable (hop : op.isLogical = false)
include hop

theorem evaluate_comparison :
    evaluate (.binaryOp op left right) row = (do
      let left ← evaluate left row
      let right ← evaluate right row
      if left.isNone || right.isNone then return .value (.bool false)
      else return .value (.bool (← comparator op left right))) := by
  cases op with
  | and | or => cases hop
  | _ => rfl

theorem sqlValue_comparison :
    sqlValue (.binaryOp op left right) row =
      if (sqlValue left row).isNone || (sqlValue right row).isNone then .value .none
      else ((comparator op (sqlValue left row) (sqlValue right row)).toOption.elim
        .unknown .ofBool : Trilean).toItem := by
  cases op with
  | and | or => cases hop
  | _ => rfl

theorem leaks_comparison :
    leaks (.binaryOp op left right) row =
      (((sqlValue left row).isNone || (sqlValue right row).isNone) &&
        let left := operand left row (leaks left row)
        let right := operand right row (leaks right row)
        !left.isNone && !right.isNone && decide (comparator op left right = .ok true)) := by
  cases op with
  | and | or => cases hop
  | _ => rfl

end

/-- Only an unknown condition leaks. -/
theorem sqlTruth_of_leaks (h : leaks e row = true) : sqlTruth e row = .unknown := by
  induction e with
  | literal value => cases h
  | columnRef name table => cases h
  | star => cases h
  | functionCall name arg => cases h
  | unaryOp op e ih =>
    cases op with
    | not =>
      simp only [leaks, Bool.and_eq_true, decide_eq_true_eq] at h
      have hvalue : sqlTruth (.unaryOp .not e) row = (sqlTruth e row).not := Trilean.truth_toItem _
      rw [hvalue, h.1]
      rfl
  | binaryOp op left right ihleft ihright =>
    by_cases hop : op.isLogical = false
    · rw [leaks_comparison hop, Bool.and_eq_true] at h
      rw [sqlTruth, sqlValue_comparison hop, if_pos h.1]
      rfl
    · cases op with
      | and =>
        have hvalue : sqlTruth (.binaryOp .and left right) row = (sqlTruth left row).and (sqlTruth right row) :=
          Trilean.truth_toItem _
        simp only [leaks, Bool.or_eq_true, Bool.and_eq_true, decide_eq_true_eq] at h
        rw [hvalue]
        obtain ⟨hleft, hright | hright⟩ | ⟨hleft, hright⟩ := h
        · rw [ihleft hleft, ihright hright]
          rfl
        · rw [ihleft hleft, hright]
          rfl
        · rw [hleft, ihright hright]
          rfl
      | or =>
        have hvalue : sqlTruth (.binaryOp .or left right) row = (sqlTruth left row).or (sqlTruth right row) :=
          Trilean.truth_toItem _
        simp only [leaks, Bool.or_eq_true, Bool.and_eq_true, decide_eq_true_eq] at h
        rw [hvalue]
        obtain ⟨hleft, hright⟩ | ⟨hright, hleft⟩ := h
        · rw [ihleft hleft]
          cases hr : sqlTruth right row <;> simp_all [Trilean.or]
        · rw [ihright hright]
          cases hl : sqlTruth left row <;> simp_all [Trilean.or]
      | _ => exact absurd rfl hop

/-- Without NOT, and with comparisons of literals and columns only. -/
def Expr.isPositive : Expr → Bool
  | .unaryOp .. => false
  | .binaryOp op left right =>
    if op.isLogical then left.isPositive && right.isPositive else left.isAtom && right.isAtom
  | _ => true

/-- Such a condition does not leak, whatever is NULL. -/
theorem leaks_of_isPositive (h : e.isPositive = true) : leaks e row = false := by
  have hatom : ∀ {e : Expr}, e.isAtom = true → (operand e row (leaks e row)).isNone = (sqlValue e row).isNone := by
    intro e he
    rw [operand, he, Bool.not_true, Bool.and_false]
    rfl
  induction e with
  | unaryOp op e ih => cases h
  | binaryOp op left right ihleft ihright =>
    by_cases hop : op.isLogical = false
    · rw [Expr.isPositive, hop] at h
      obtain ⟨hl, hr⟩ := Bool.and_eq_true_iff.mp h
      rw [leaks_comparison hop]
      dsimp only
      rw [hatom hl, hatom hr]
      cases (sqlValue left row).isNone <;> cases (sqlValue right row).isNone <;> rfl
    · rw [Bool.not_eq_false] at hop
      rw [Expr.isPositive, hop] at h
      obtain ⟨hl, hr⟩ := Bool.and_eq_true_iff.mp h
      cases op with
      | and => simp [leaks, ihleft hl, ihright hr]
      | or => simp [leaks, ihleft hl, ihright hr]
      | _ => cases hop
  | _ => rfl

/-! ## What the code makes of a condition -/

/-- The value as which the code takes a condition. -/
def codeValue (e : Expr) (row : Row) : RowItem := operand e row (leaks e row)

theorem codeValue_truthy (e : Expr) (row : Row) :
    (codeValue e row).truthy = (sqlTruth e row).reading (leaks e row) := by
  unfold codeValue operand sqlTruth
  by_cases hnone : (sqlValue e row).isNone
  · rw [RowItem.truth_of_isNone hnone, Trilean.reading]
    by_cases hatom : e.isAtom
    · rw [leaks_of_isAtom hatom, hnone, hatom, if_neg (by decide)]
      revert hnone
      cases sqlValue e row with
      | rid rid => exact fun h => by cases h
      | value value => cases value <;> simp [RowItem.isNone, RowItem.truthy, Value.truthy]
    · rw [if_pos (by simp [hnone, hatom])]
      rfl
  · rw [if_neg (by simp [hnone]), RowItem.truth, if_neg hnone, Trilean.reading_ofBool]

/-- The value of a condition that is no literal or column is a truth value. -/
theorem codeValue_of_toItem {t : Trilean} (hatom : e.isAtom = false) (h : sqlValue e row = t.toItem) :
    codeValue e row = .value (.bool (t.reading (leaks e row))) := by
  unfold codeValue operand
  rw [h, hatom, Trilean.isNone_toItem]
  cases t <;> rfl

/-- What a condition evaluates to. -/
theorem Proper.evaluate_eq (h : Proper row e) : evaluate e row = .ok (codeValue e row) := by
  induction h with
  | literal value =>
    have hvalue : codeValue (.literal value) row = .value value := if_neg (by simp [Expr.isAtom])
    rw [hvalue]
    rfl
  | @columnRef name table v hresolve =>
    have hvalue : codeValue (.columnRef name table) row = v := by
      rw [codeValue, operand, if_neg (by simp [Expr.isAtom]), sqlValue, hresolve]
      rfl
    rw [hvalue]
    exact hresolve
  | @not e he ih =>
    have hleaks : leaks (.unaryOp .not e) row = (decide (sqlTruth e row = .unknown) && !leaks e row) := rfl
    rw [codeValue_of_toItem rfl rfl, hleaks, evaluate, ih]
    change Except.ok (RowItem.value (.bool (!(codeValue e row).truthy))) = _
    rw [codeValue_truthy, Trilean.reading_not]
    change Except.ok (RowItem.value (.bool ((sqlTruth e row).not.reading _))) =
      .ok (.value (.bool ((sqlTruth e row).not.reading _)))
    cases sqlTruth e row <;> rfl
  | @and left right hleft hright ihleft ihright =>
    rw [codeValue_of_toItem rfl rfl, evaluate, ihleft, ihright]
    have hboth := Trilean.reading_and (sqlTruth left row) (sqlTruth right row) (leaks left row) (leaks right row)
    rw [← codeValue_truthy, ← codeValue_truthy] at hboth
    refine Eq.trans ?_ (congrArg (fun b => Except.ok (RowItem.value (.bool b))) hboth)
    cases hl : (codeValue left row).truthy <;> simp [bind, Except.bind, pure, Except.pure, hl]
  | @or left right hleft hright ihleft ihright =>
    rw [codeValue_of_toItem rfl rfl, evaluate, ihleft, ihright]
    have hboth := Trilean.reading_or (t := sqlTruth left row) (u := sqlTruth right row)
      (a := leaks left row) (b := leaks right row) sqlTruth_of_leaks sqlTruth_of_leaks
    rw [← codeValue_truthy, ← codeValue_truthy] at hboth
    refine Eq.trans ?_ (congrArg (fun b => Except.ok (RowItem.value (.bool b))) hboth)
    cases hl : (codeValue left row).truthy <;> simp [bind, Except.bind, pure, Except.pure, hl]
  | @comparison op left right hop hleft hright hcompare ihleft ihright =>
    have hvalue : sqlValue (.binaryOp op left right) row = _ := sqlValue_comparison hop
    have hleaks : leaks (.binaryOp op left right) row = _ := leaks_comparison hop
    rw [evaluate_comparison hop, ihleft, ihright]
    change (if (codeValue left row).isNone || (codeValue right row).isNone then _ else _ :
      Except PyError RowItem) = _
    by_cases hnull : (sqlValue left row).isNone || (sqlValue right row).isNone
    · -- unknown: it comes out true where the operands are not NULL themselves, and compare so
      have hunknown : sqlValue (.binaryOp op left right) row = Trilean.unknown.toItem := by
        rw [hvalue, if_pos hnull]
        rfl
      rw [codeValue_of_toItem rfl hunknown, hleaks, hnull, Bool.true_and]
      change _ = Except.ok (RowItem.value (.bool (!(codeValue left row).isNone &&
        !(codeValue right row).isNone && decide (comparator op (codeValue left row) (codeValue right row) =
          .ok true))))
      by_cases hnone : (codeValue left row).isNone || (codeValue right row).isNone
      · rw [if_pos hnone, ← Bool.not_or, hnone]
        rfl
      · obtain ⟨hl, hr⟩ : (codeValue left row).isNone = false ∧ (codeValue right row).isNone = false := by
          simpa using hnone
        obtain ⟨c, hc⟩ := hcompare _ _ ihleft ihright hl hr
        rw [if_neg hnone, hl, hr, hc]
        cases c <;> rfl
    · obtain ⟨hl, hr⟩ : (sqlValue left row).isNone = false ∧ (sqlValue right row).isNone = false := by
        simpa using hnull
      have hsame : ∀ e, (sqlValue e row).isNone = false → codeValue e row = sqlValue e row := fun e he => by
        rw [codeValue, operand, if_neg (by simp [he])]
      obtain ⟨c, hc⟩ := hcompare _ _ ihleft ihright (by rw [hsame left hl, hl]) (by rw [hsame right hr, hr])
      rw [hsame left hl, hsame right hr] at hc ⊢
      have hdefinite : sqlValue (.binaryOp op left right) row = (Trilean.ofBool c).toItem := by
        rw [hvalue, if_neg hnull, hc]
        rfl
      rw [codeValue_of_toItem rfl hdefinite, if_neg hnull, hc, Trilean.reading_ofBool]
      rfl

/-! ## Filters -/

/-- Over an operator that yields `rows`, a `FilterOperator` keeps a row exactly when its predicate
    is true in three-valued logic, if and only if the predicate does not leak on the row. -/
theorem Operator.drain_filter_iff {child : Operator} {rows : List Row} {predicate : Expr}
    (hopens : child.Opens (fun _ => False) rows) (hcloses : child.Closes)
    (hproper : ∀ row ∈ rows, Proper row predicate) (s : (child.filter predicate).State) :
    ∃ keeps : Row → Bool,
      (∃ n s', ∀ fuel ≥ n, (child.filter predicate).drain fuel s = .ok (rows.filter keeps) s') ∧
      (∀ fuel found s', (child.filter predicate).drain fuel s = .ok found s' → found = rows.filter keeps) ∧
      ∀ row ∈ rows, (keeps row = true ↔ sqlTruth predicate row = .true) ↔ leaks predicate row = false := by
  have heval : ∀ row ∈ rows, ∀ e, holds predicate row = .error e → False := by
    intro row hrow e he
    rw [holds, (hproper row hrow).evaluate_eq] at he
    cases he
  have hready : (child.filter predicate).Opens (fun _ => False) (rows.filter (satisfies predicate)) :=
    hopens.filter heval
  obtain ⟨hreturns, hfound⟩ := (hready.drain hcloses.filter s).returns
  refine ⟨satisfies predicate, hreturns, hfound, fun row hrow => ?_⟩
  have hsatisfies : satisfies predicate row = (sqlTruth predicate row).reading (leaks predicate row) := by
    rw [satisfies, holds, (hproper row hrow).evaluate_eq, ← codeValue_truthy]
    simp [bind, Except.bind, pure, Except.pure]
  rw [hsatisfies]
  cases hleaks : leaks predicate row with
  | true =>
    rw [sqlTruth_of_leaks hleaks]
    decide
  | false => cases sqlTruth predicate row <;> decide

/-- WHERE NOT (a = 1): a row without NULL. -/
theorem Operator.drain_filter_negation :
    let predicate : Expr := .unaryOp .not (.binaryOp .eq (.columnRef "a" none) (.literal (.int 1)))
    let row : Row := [("a", .value (.int 2))]
    ∃ keeps : Row → Bool,
      (∃ n s', ∀ fuel ≥ n, ((leaf [row]).filter predicate).drain fuel none = .ok ([row].filter keeps) s') ∧
      ((keeps row = true ↔ sqlTruth predicate row = .true) ↔ leaks predicate row = false) := by
  intro predicate row
  have hproper : ∀ r ∈ [row], Proper r predicate := by
    intro r hr
    obtain rfl := List.mem_singleton.mp hr
    exact .not (.comparison rfl (.columnRef rfl) (.literal _) fun a b _ _ _ _ => ⟨_, rfl⟩)
  obtain ⟨keeps, hreturns, -, hkeeps⟩ := Operator.drain_filter_iff (Operator.opens_leaf [row])
    (Operator.closes_leaf [row]) hproper none
  exact ⟨keeps, hreturns, hkeeps row (List.mem_singleton_self row)⟩

/-- The same condition on NULL is unknown, and the row is kept. -/
theorem Operator.filter_keeps_unknown :
    let predicate : Expr := .unaryOp .not (.binaryOp .eq (.columnRef "a" none) (.literal (.int 1)))
    let row : Row := [("a", .value .none)]
    (∃ s', ((leaf [row]).filter predicate).drain 9 none = .ok [row] s') ∧
      Proper row predicate ∧ sqlTruth predicate row = .unknown :=
  ⟨⟨_, rfl⟩, .not (.comparison rfl (.columnRef rfl) (.literal _) fun _ _ _ _ _ _ => ⟨_, rfl⟩), by decide⟩

end Minirel
