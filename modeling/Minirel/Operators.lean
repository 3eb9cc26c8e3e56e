-- SUMMARY: Trees of operators, pulled row by row.
import Minirel.Executor
import Minirel.Lib.Fueled

/-!
# Operators

`executor.py`: an operator is opened, pulled for one row after the other, and closed. An
operator over others keeps what they keep, and what it keeps itself. Here a tree of
operators is connected to the list of rows it stands for.

The loops of `next` end when the operators below have no more rows, which no bound of the
loop says: they are given fuel.
-/

namespace Minirel

/-- An operator: what it keeps between the calls, what it keeps at first, and its methods. -/
structure Operator where
  State : Type
  init : State
  start : Fueled PyError State Unit
  next : Fueled PyError State (Option Row)
  close : EStateM PyError State Unit

namespace Operator

/-! ## The iterator -/

/-- The loop of `__iter__`. -/
def pullAll (op : Operator) : Fueled PyError op.State (List Row)
  | 0 => throw .diverges
  | fuel + 1 => do
    match ← op.next fuel with
    | none => return []
    | some row => return row :: (← pullAll op fuel)

/-- Draining `__iter__`. -/
def drain (op : Operator) : Fueled PyError op.State (List Row) := fun fuel => do
  op.start fuel
  fun s =>
    match op.pullAll fuel s with
    | .ok rows s => (do op.close; return rows : EStateM PyError op.State (List Row)) s
    | .error e s => (do op.close; throw e : EStateM PyError op.State (List Row)) s

/-! ## The operators -/

/-- An operator that hands out the rows of a list. Before it is opened it has none to hand
    out. -/
def leaf (rows : List Row) : Operator where
  State := Option (List Row)
  init := none
  start _ := fun _ => .ok () (some rows)
  next _ := fun
    | none => .error .typeError none
    | some [] => .ok none (some [])
    | some (row :: rest) => .ok (some row) (some rest)
  close := return

def evaluated {σ α : Type} (x : Except PyError α) : EStateM PyError σ α := fun s =>
  match x with
  | .ok a => .ok a s
  | .error e => .error e s

/-- The loop of `FilterOperator.next`. -/
def filterNext (child : Operator) (predicate : Expr) : Fueled PyError child.State (Option Row)
  | 0 => throw .diverges
  | fuel + 1 => do
    match ← child.next fuel with
    | none => return none
    | some row =>
      if ← evaluated (holds predicate row) then return some row
      else filterNext child predicate fuel

/-- `FilterOperator`. -/
def filter (child : Operator) (predicate : Expr) : Operator where
  State := child.State
  init := child.init
  start := child.start
  next := filterNext child predicate
  close := child.close

/-- What a `LimitOperator` keeps. -/
structure LimitState (child : Operator) where
  child : child.State
  count : Nat

/-- A call on the child. -/
def LimitState.onChild {child : Operator} {α : Type} (m : EStateM PyError child.State α) :
    EStateM PyError (LimitState child) α := fun s =>
  match m s.child with
  | .ok a c => .ok a { s with child := c }
  | .error e c => .error e { s with child := c }

/-- `LimitOperator`. -/
def limit (child : Operator) (limit : Int) : Operator where
  State := LimitState child
  init := ⟨child.init, 0⟩
  start fuel := do
    LimitState.onChild (child.start fuel)
    modify fun s => { s with count := 0 }
  next fuel := do
    let s ← get
    if (s.count : Int) ≥ limit then return none
    else
      match ← LimitState.onChild (child.next fuel) with
      | none => return none
      | some row =>
        modify fun s => { s with count := s.count + 1 }
        return some row
  close := LimitState.onChild child.close

/-! ## Operators that take in all rows -/

/-- What a `SortOperator` or a `HashAggregateOperator` keeps: its rows, once it has been opened,
    and how many of them it has handed out. -/
structure MaterializedState (child : Operator) where
  child : child.State
  rows : Option (List Row)
  pos : Nat

/-- A call on the child. -/
def MaterializedState.onChild {child : Operator} {α : Type} (m : EStateM PyError child.State α) :
    EStateM PyError (MaterializedState child) α := fun s =>
  match m s.child with
  | .ok a c => .ok a { s with child := c }
  | .error e c => .error e { s with child := c }

section Materialize
variable {σ : Type} (child : Operator) (step : σ → Row → Except PyError σ)

/-- The loop of `open`: every row of the child is taken in. -/
def takeIn : σ → Fueled PyError child.State σ
  | _, 0 => throw .diverges
  | acc, fuel + 1 => do
    match ← child.next fuel with
    | none => return acc
    | some row => takeIn (← evaluated (step acc row)) fuel

/-- An operator that takes in all rows when it is opened, and hands out what it has made of
    them. -/
def materialize (first : σ) (finish : σ → Except PyError (List Row)) : Operator where
  State := MaterializedState child
  init := ⟨child.init, none, 0⟩
  start fuel := do
    MaterializedState.onChild (child.start fuel)
    let acc ← MaterializedState.onChild (takeIn child step first fuel)
    let rows ← evaluated (finish acc)
    modify fun s => { s with rows := some rows, pos := 0 }
  next _ := fun s =>
    match s.rows with
    | none => .error .typeError s
    | some rows =>
      match rows[s.pos]? with
      | none => .ok none s
      | some row => .ok (some row) { s with pos := s.pos + 1 }
  close := MaterializedState.onChild child.close

end Materialize

/-! ## Projection -/

/-- `_default_column_name`. -/
def defaultColumnName (lower : String → String) (item : SelectItem) : String :=
  match item.expr with
  | .columnRef name _ => name
  | .functionCall name _ => lower name
  | _ => "expr"

/-- `item.alias or _default_column_name(item)`. -/
def itemName (lower : String → String) (item : SelectItem) : String :=
  match item.alias_ with
  | none | some "" => defaultColumnName lower item
  | some name => name

/-- What `ProjectOperator` makes of a row. -/
def project (lower : String → String) (items : List SelectItem) (row : Row) : Except PyError Row :=
  match items with
  | [⟨.star, _⟩] =>
    .ok (row.filter fun (k, _) => !"__".toList.isPrefixOf k.toList && !k.toList.contains '.')
  | items =>
    items.foldlM (fun out item => do return out.set (itemName lower item) (← evaluate item.expr row)) []

/-- `ProjectOperator`. -/
def projectOperator (lower : String → String) (child : Operator) (items : List SelectItem) :
    Operator where
  State := child.State
  init := child.init
  start := child.start
  next fuel := do
    match ← child.next fuel with
    | none => return none
    | some row => return some (← evaluated (project lower items row))
  close := child.close

/-! ## The join -/

/-- What a `NestedLoopJoinOperator` keeps. The factory of its right side has been called
    `calls` times. -/
structure JoinState (left : Operator) (right : Nat → Operator) where
  left : left.State
  calls : Nat
  leftRow : Option Row
  right : Option (Σ n, (right n).State)

namespace JoinState
variable {left : Operator} {right : Nat → Operator} {α : Type}

/-- A call on the left side. -/
def onLeft (m : EStateM PyError left.State α) : EStateM PyError (JoinState left right) α := fun s =>
  match m s.left with
  | .ok a l => .ok a { s with left := l }
  | .error e l => .error e { s with left := l }

/-- A call on the right side. There is one whenever there is a left row. -/
def onRight (m : ∀ n, EStateM PyError (right n).State α) : EStateM PyError (JoinState left right) α :=
  fun s =>
    match s.right with
    | none => .error .typeError s
    | some ⟨n, r⟩ =>
      match m n r with
      | .ok a r => .ok a { s with right := some ⟨n, r⟩ }
      | .error e r => .error e { s with right := some ⟨n, r⟩ }

/-- A fresh right side, opened. -/
def openRight : Fueled PyError (JoinState left right) Unit := fun fuel => do
  modify fun s => { s with right := some ⟨s.calls, (right s.calls).init⟩, calls := s.calls + 1 }
  onRight fun n => (right n).start fuel

end JoinState

section Join
variable (left : Operator) (right : Nat → Operator) (on : Expr)

open JoinState

/-- The loop of `NestedLoopJoinOperator.next`. -/
def joinNext : Fueled PyError (JoinState left right) (Option Row)
  | 0 => throw .diverges
  | fuel + 1 => do
    match (← get).leftRow with
    | none => return none
    | some leftRow =>
      match ← onRight fun n => (right n).next fuel with
      | none =>
        onRight fun n => (right n).close
        let leftRow ← onLeft (left.next fuel)
        modify fun s => { s with leftRow }
        if leftRow.isNone then return none
        else
          openRight fuel
          joinNext fuel
      | some rightRow =>
        let merged : Row := leftRow.update rightRow
        if ← evaluated (holds on merged) then return some merged
        else joinNext fuel

/-- `NestedLoopJoinOperator`. -/
def nestedLoopJoin : Operator where
  State := JoinState left right
  init := ⟨left.init, 0, none, none⟩
  start fuel := do
    onLeft (left.start fuel)
    let leftRow ← onLeft (left.next fuel)
    modify fun s => { s with leftRow, right := none }
    if leftRow.isNone then return
    else openRight fuel
  next := joinNext left right on
  close := do
    onLeft left.close
    if (← get).right.isSome then onRight fun n => (right n).close

end Join

end Operator
end Minirel
