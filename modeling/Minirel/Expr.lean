-- SUMMARY: Evaluation of expressions on rows.
import Minirel.Sql.Ast
import Minirel.Lib.Dict

/-!
# Evaluation

`expr.py`: an expression is evaluated against a row, a dictionary from names to
what stands under them. Beside its columns a row holds the RID it was read from,
under `__rid__`, and an expression can name that too.
-/

namespace Minirel

/-- What a row holds under a name. -/
inductive RowItem where
  | value (v : Value)
  | rid (rid : RID)
  deriving DecidableEq

abbrev Row := Dict RowItem

namespace RowItem

/-- `a == b`. A RID equals only a RID with the same fields. -/
def eq : RowItem → RowItem → Bool
  | .value v, .value w => v.eq w
  | .rid r, .rid r' => decide (r = r')
  | _, _ => false

/-- An order comparison. RIDs have none. -/
def order (cmp : Value → Value → Except PyError Bool) : RowItem → RowItem → Except PyError Bool
  | .value v, .value w => cmp v w
  | _, _ => .error .typeError

/-- `_truthy`. -/
def truthy : RowItem → Bool
  | .value v => v.truthy
  | .rid _ => true

def isNone : RowItem → Bool
  | .value .none => true
  | _ => false

@[simp] theorem truthy_bool (b : Bool) : (RowItem.value (.bool b)).truthy = b := rfl

end RowItem

def resolveColumn (row : Row) (name : String) (table : Option String) : Except PyError RowItem :=
  match table with
  | some t =>
    let key := t ++ "." ++ name
    match row.get? key with
    | some item => .ok item
    | none => .error (.columnNotFoundError s!"no such column: {key}")
  | none =>
    match row.get? name with
    | some item => .ok item
    | none =>
      match row.keys.filter (fun k => ("." ++ name).toList.isSuffixOf k.toList) with
      | [] => .error (.columnNotFoundError s!"no such column: {name}")
      | [key] =>
        match row.get? key with
        | some item => .ok item
        | none => .error (.keyError key)
      | matched => .error (.ambiguousColumnError
          (s!"column reference '{name}' is ambiguous: [" ++
            ", ".intercalate (matched.map fun k => s!"'{k}'") ++ "]"))

/-- `_COMPARATORS[op](left, right)`. -/
def comparator (op : BinOp) (left right : RowItem) : Except PyError Bool :=
  match op with
  | .eq => .ok (left.eq right)
  | .ne => .ok (!left.eq right)
  | .lt => left.order Value.lt right
  | .le => left.order Value.le right
  | .gt => right.order Value.lt left
  | .ge => right.order Value.le left
  | .and | .or => .error (.keyError "unknown comparison")

def evaluate : Expr → Row → Except PyError RowItem
  | .literal value, _ => .ok (.value value)
  | .columnRef name table, row => resolveColumn row name table
  | .star, _ => .error (.valueError "'*' cannot be evaluated as a scalar expression")
  | .unaryOp .not operand, row => do
    let v ← evaluate operand row
    return .value (.bool !v.truthy)
  | .binaryOp .and left right, row => do
    if (← evaluate left row).truthy then return .value (.bool (← evaluate right row).truthy)
    else return .value (.bool false)
  | .binaryOp .or left right, row => do
    if (← evaluate left row).truthy then return .value (.bool true)
    else return .value (.bool (← evaluate right row).truthy)
  | .binaryOp op left right, row => do
    let left ← evaluate left row
    let right ← evaluate right row
    if left.isNone || right.isNone then return .value (.bool false)
    else return .value (.bool (← comparator op left right))
  | .functionCall name _, _ => .error (.valueError
      (s!"aggregate function {name}(...) is only valid as a top-level SELECT item, " ++
        "not inside WHERE/ON (minirel doesn't support HAVING or nested aggregates)"))

/-! ## Conjunctions -/

/-- An expression holds on a row: it evaluates, to something true. -/
def holds (e : Expr) (row : Row) : Except PyError Bool := do
  return (← evaluate e row).truthy

theorem holds_and (left right : Expr) (row : Row) :
    holds (.binaryOp .and left right) row =
      (do if ← holds left row then holds right row else return false) := by
  simp only [holds, evaluate]
  cases evaluate left row with
  | error e => rfl
  | ok v =>
    cases hv : v.truthy with
    | false => simp [bind, Except.bind, pure, Except.pure, hv]
    | true =>
      cases evaluate right row with
      | error e => simp [bind, Except.bind, pure, Except.pure, hv]
      | ok w => simp [bind, Except.bind, pure, Except.pure, hv]

end Minirel
