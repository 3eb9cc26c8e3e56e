-- SUMMARY: GROUP BY makes one row for each group, with the aggregates of exactly the rows of the group.
import Minirel.OperatorTrees
import Minirel.Lib.Grouping
import Mathlib.Algebra.Order.Ring.Cast

/-!
# GROUP BY

`HashAggregateOperator` keeps a state for each group and each aggregate, and brings it up to
date row by row. Here every state is the one of the rows of its group so far, and the
groups partition what has been read.

What the interpreter makes of sums and quotients of floats is a parameter.
-/

namespace Minirel

/-! ## The operator -/

/-- What the interpreter does with floats: `x + y`, and `total / count`. -/
structure FloatArithmetic where
  add : PyFloat → PyFloat → PyFloat
  divide : Value → Nat → Except PyError Value

/-- Exact sums and quotients, of finite floats. -/
def FloatArithmetic.exact : FloatArithmetic where
  add
    | .finite q, .finite r => .finite (q + r)
    | _, _ => .nan
  divide
    | .int i, n => .ok (.float (.finite (i / n)))
    | .float (.finite q), n => .ok (.float (.finite (q / n)))
    | v, _ => .ok v

inductive AggKind where
  | count
  | sum
  | avg
  | min
  | max
  /-- A name that no branch of `_AggState` knows. -/
  | other
  deriving DecidableEq

def AggKind.ofName : String → AggKind
  | "COUNT" => .count
  | "SUM" => .sum
  | "AVG" => .avg
  | "MIN" => .min
  | "MAX" => .max
  | _ => .other

/-- `_AggState`. `best` is `None` until there is a value. -/
structure AggState where
  kind : AggKind
  count : Nat := 0
  total : Value := .int 0
  best : RowItem := .value .none

/-- The integer a value is; a `bool` is an `int`. -/
def Value.int? : Value → Option Int
  | .bool b => some (if b then 1 else 0)
  | .int i => some i
  | _ => .none

section
variable (C : Conversions) (A : FloatArithmetic)

/-- `total + value`. -/
def plus (total : Value) : RowItem → Except PyError Value
  | .rid _ => .error .typeError
  | .value value =>
    match total.int?, value.int? with
    | some i, some j => .ok (.int (i + j))
    | _, _ =>
      match value with
      | .none | .str _ => .error .typeError
      | value => do return .float (A.add (← C.toFloat total) (← C.toFloat value))

namespace AggState

def add (state : AggState) (value : RowItem) : Except PyError AggState :=
  if value.isNone then .ok state
  else
    match state.kind with
    | .count => .ok { state with count := state.count + 1 }
    | .sum => do return { state with total := ← plus C A state.total value }
    | .avg => do return { state with total := ← plus C A state.total value, count := state.count + 1 }
    | .min => do
      if state.best.isNone then return { state with best := value }
      else if ← RowItem.order Value.lt value state.best then return { state with best := value }
      else return state
    | .max => do
      if state.best.isNone then return { state with best := value }
      else if ← RowItem.order Value.lt state.best value then return { state with best := value }
      else return state
    | .other => .ok state

def result (state : AggState) : Except PyError RowItem :=
  match state.kind with
  | .count => .ok (.value (.int state.count))
  | .sum => .ok (.value state.total)
  | .avg =>
    if state.count = 0 then .ok (.value .none)
    else do return .value (← A.divide state.total state.count)
  | _ => .ok state.best

end AggState

/-- What a row contributes to an aggregate: `COUNT(*)` counts rows. -/
def contribution (arg : Expr) (row : Row) : Except PyError RowItem :=
  match arg with
  | .star => .ok (.value (.int 1))
  | arg => evaluate arg row

/-- A group: its key, `group_values[key]`, and a state for each aggregate among the items. -/
structure Group where
  key : List RowItem
  values : Dict RowItem
  states : List (Option AggState)

/-- `row.get(col)`. -/
def columnOr (row : Row) (col : String) : RowItem := (row.get? col).getD (.value .none)

def groupKey (groupBy : List String) (row : Row) : List RowItem := groupBy.map (columnOr row)

/-- Whether two keys are the same in a dictionary: tuples are equal when their parts are. -/
def keyEq : List RowItem → List RowItem → Bool
  | [], [] => true
  | a :: as, b :: bs => a.eq b && keyEq as bs
  | _, _ => false

/-- The group that a row starts. -/
def newGroup (groupBy : List String) (items : List SelectItem) (row : Row) : Group where
  key := groupKey groupBy row
  values := .ofList (groupBy.map fun col => (col, columnOr row col))
  states := items.map fun item =>
    match item.expr with
    | .functionCall name _ => some { kind := .ofName name }
    | _ => none

/-- A row is added to the states of its group. -/
def absorb (items : List SelectItem) (row : Row) (g : Group) : Except PyError Group := do
  let states ← (items.zip g.states).mapM fun (item, state) =>
    match item.expr, state with
    | .functionCall _ arg, some state => do return some (← state.add C A (← contribution arg row))
    | _, state => return state
  return { g with states }

/-- One round of the loop of `HashAggregateOperator.open`. -/
def addRow (groupBy : List String) (items : List SelectItem) :
    List Group → Row → Except PyError (List Group)
  | [], row => do return [← absorb C A items row (newGroup groupBy items row)]
  | g :: gs, row => do
    if keyEq g.key (groupKey groupBy row) then return (← absorb C A items row g) :: gs
    else return g :: (← addRow groupBy items gs row)

variable (lower : String → String)

/-- The column that an item without an aggregate is read from. -/
def sourceName (item : SelectItem) : String :=
  match item.expr with
  | .columnRef name _ | .functionCall name _ => name
  | _ => Operator.itemName lower item

/-- One round of the loop over the items. -/
def setItem (values : Dict RowItem) (out : Row) (item : SelectItem) (state : Option AggState) :
    Except PyError Row := do
  match state with
  | some state => return out.set (Operator.itemName lower item) (← state.result A)
  | none => return out.set (Operator.itemName lower item) (columnOr values (sourceName lower item))

/-- The output row of a group. -/
def groupRow (items : List SelectItem) (g : Group) : Except PyError Row :=
  (items.zip g.states).foldlM (fun out x => setItem A lower g.values out x.1 x.2) []

/-- The output row of no input at all. -/
def emptyRow (items : List SelectItem) : Except PyError Row :=
  items.foldlM (fun out item => do
    match item.expr with
    | .functionCall name _ =>
      return out.set (Operator.itemName lower item) (← ({ kind := .ofName name } : AggState).result A)
    | _ => return out) []

/-- The output rows of `HashAggregateOperator.open`. -/
def groupRows (groupBy : List String) (items : List SelectItem) (groups : List Group) :
    Except PyError (List Row) := do
  let rows ← groups.mapM (groupRow A lower items)
  if groups.isEmpty && groupBy.isEmpty then return rows ++ [← emptyRow A lower items]
  else return rows

/-- `HashAggregateOperator`. -/
def Operator.hashAggregate (child : Operator) (groupBy : List String) (items : List SelectItem) : Operator :=
  child.materialize (addRow C A groupBy items) [] (groupRows A lower groupBy items)

end

/-! ## What an aggregate stands for -/

/-- The non-NULL values of an integer column. -/
def integers (vs : List RowItem) : List Int := vs.filterMap fun v =>
  match v with
  | .value (.int i) => some i
  | _ => none

/-- An integer, or NULL. -/
def IsInteger (v : RowItem) : Prop := v = .value .none ∨ ∃ i, v = .value (.int i)

/-- An integer or NULL as a value. -/
def ofInteger? (i : Option Int) : RowItem := .value (i.elim .none .int)

/-- The aggregate of the values of an integer column. -/
def aggregate : AggKind → List RowItem → RowItem
  | .count, vs => .value (.int (integers vs).length)
  | .sum, vs => .value (.int (integers vs).sum)
  | .min, vs => ofInteger? (integers vs).min?
  | .max, vs => ofInteger? (integers vs).max?
  | _, _ => .value .none

/-- The state that stands for some values. -/
def AggState.over (kind : AggKind) (vs : List RowItem) : AggState where
  kind := kind
  count := if kind = .count then (integers vs).length else 0
  total := if kind = .sum then .int (integers vs).sum else .int 0
  best :=
    if kind = .min then ofInteger? (integers vs).min?
    else if kind = .max then ofInteger? (integers vs).max? else .value .none

theorem integers_snoc (vs : List RowItem) (v : RowItem) :
    integers (vs ++ [v]) = integers vs ++ integers [v] := List.filterMap_append

theorem min?_snoc (l : List Int) (i : Int) : (l ++ [i]).min? = some (l.min?.elim i (min · i)) := by
  cases l with
  | nil => rfl
  | cons a l =>
    rw [List.cons_append, List.min?_cons', List.foldl_append, List.min?_cons']
    rfl

theorem max?_snoc (l : List Int) (i : Int) : (l ++ [i]).max? = some (l.max?.elim i (max · i)) := by
  cases l with
  | nil => rfl
  | cons a l =>
    rw [List.cons_append, List.max?_cons', List.foldl_append, List.max?_cons']
    rfl

theorem order_lt_int (i j : Int) :
    RowItem.order Value.lt (.value (.int i)) (.value (.int j)) = .ok (decide (i < j)) := by
  have hrank : ∀ k : Int, (Value.int k).rank = ((k : ℚ) : WithTop ℚ) := fun _ => rfl
  refine (Value.lt_eq (Value.isNumber_int i) (Value.isNumber_int j)).trans ?_
  rw [hrank, hrank]
  exact congrArg Except.ok (decide_eq_decide.mpr
    (WithBot.coe_lt_coe.trans (WithTop.coe_lt_coe.trans Int.cast_lt)))

variable {C : Conversions} {A : FloatArithmetic} {lower : String → String}
  {groupBy : List String} {items : List SelectItem}

/-- What adding a value keeps. -/
theorem AggState.add_over {kind : AggKind} (hkind : kind ≠ .avg) (vs : List RowItem) {v : RowItem}
    (hv : IsInteger v) : (AggState.over kind vs).add C A v = .ok (AggState.over kind (vs ++ [v])) := by
  obtain rfl | ⟨i, rfl⟩ := hv
  · have hsame : integers (vs ++ [.value .none]) = integers vs := by
      rw [integers_snoc]
      exact List.append_nil _
    simp only [AggState.over, hsame]
    rfl
  · have hmore : integers (vs ++ [.value (.int i)]) = integers vs ++ [i] := integers_snoc _ _
    cases kind with
    | avg => exact absurd rfl hkind
    | count =>
      simp only [AggState.over, hmore, List.length_append, List.length_singleton]
      rfl
    | sum =>
      simp only [AggState.over, hmore, List.sum_append, List.sum_singleton]
      rfl
    | min =>
      simp only [AggState.over, hmore, min?_snoc]
      cases hbest : (integers vs).min? with
      | none => rfl
      | some j =>
        by_cases hij : i < j
        · simp [add, order_lt_int, hij, hij.le, ofInteger?, RowItem.isNone,
            bind, Except.bind, pure, Except.pure]
        · simp [add, order_lt_int, hij, not_lt.mp hij, ofInteger?, RowItem.isNone,
            bind, Except.bind, pure, Except.pure]
    | max =>
      simp only [AggState.over, hmore, max?_snoc]
      cases hbest : (integers vs).max? with
      | none => rfl
      | some j =>
        by_cases hij : j < i
        · simp [add, order_lt_int, hij, hij.le, ofInteger?, RowItem.isNone,
            bind, Except.bind, pure, Except.pure]
        · simp [add, order_lt_int, hij, not_lt.mp hij, ofInteger?, RowItem.isNone,
            bind, Except.bind, pure, Except.pure]
    | other => rfl

/-- The state stands for the aggregate. -/
theorem AggState.result_over {kind : AggKind} (hkind : kind ≠ .avg) (vs : List RowItem) :
    (AggState.over kind vs).result A = .ok (aggregate kind vs) := by
  cases kind with
  | avg => exact absurd rfl hkind
  | count => rfl
  | sum => rfl
  | min => rfl
  | max => rfl
  | other => rfl

/-! ## The items -/

/-- An item that GROUP BY can make: a column that is grouped by, or an aggregate of integers. -/
inductive Groupable (groupBy : List String) (rows : List Row) (item : SelectItem) : Prop where
  | column {name : String} {table : Option String} (hexpr : item.expr = .columnRef name table)
      (hmem : name ∈ groupBy)
  | countRows (hexpr : item.expr = .functionCall "COUNT" .star)
  | values {name : String} {arg : Expr} (hexpr : item.expr = .functionCall name arg)
      (hname : name ∈ ["COUNT", "SUM", "MIN", "MAX"]) (hstar : arg ≠ .star)
      (hvalues : ∀ row ∈ rows, ∃ v, evaluate arg row = .ok v ∧ IsInteger v)

theorem Groupable.cases {rows : List Row} {item : SelectItem} (h : Groupable groupBy rows item) :
    (∃ name table, item.expr = .columnRef name table ∧ name ∈ groupBy) ∨
      ∃ name arg, item.expr = .functionCall name arg := by
  cases h with
  | column hexpr hmem => exact .inl ⟨_, _, hexpr, hmem⟩
  | countRows hexpr => exact .inr ⟨_, _, hexpr⟩
  | values hexpr => exact .inr ⟨_, _, hexpr⟩

/-- What the rows contribute to an aggregate. -/
def contributed (arg : Expr) (row : Row) : RowItem := (contribution arg row).toOption.getD (.value .none)

theorem contribution_eq {arg : Expr} (hstar : arg ≠ .star) (row : Row) :
    contribution arg row = evaluate arg row := by
  cases arg with
  | star => exact absurd rfl hstar
  | _ => rfl

theorem Groupable.contribution {rows : List Row} {item : SelectItem} (h : Groupable groupBy rows item)
    {name : String} {arg : Expr} (hexpr : item.expr = .functionCall name arg) :
    AggKind.ofName name ≠ .avg ∧
      ∀ row ∈ rows, contribution arg row = .ok (contributed arg row) ∧ IsInteger (contributed arg row) := by
  cases h with
  | column hcol hmem =>
    rw [hexpr] at hcol
    cases hcol
  | countRows hcount =>
    rw [hexpr] at hcount
    cases hcount
    exact ⟨by decide, fun row _ => ⟨rfl, .inr ⟨1, rfl⟩⟩⟩
  | values hint hname hstar hvalues =>
    rw [hexpr] at hint
    cases hint
    refine ⟨?_, fun row hrow => ?_⟩
    · simp only [List.mem_cons, List.not_mem_nil, or_false] at hname
      obtain rfl | rfl | rfl | rfl := hname <;> decide
    · obtain ⟨v, hv, hint⟩ := hvalues row hrow
      rw [contributed, contribution_eq hstar, hv]
      exact ⟨rfl, hint⟩

/-- The entry of an item in the row of a group. -/
def groupEntry (item : SelectItem) (g : List Row) : RowItem :=
  match item.expr with
  | .functionCall _ .star => .value (.int g.length)
  | .functionCall name arg =>
    aggregate (.ofName name) (g.map fun row => (evaluate arg row).toOption.getD (.value .none))
  | .columnRef name _ => g.head?.elim (.value .none) (columnOr · name)
  | _ => .value .none

theorem Groupable.groupEntry_eq {rows : List Row} {item : SelectItem}
    (h : Groupable groupBy rows item) {name : String} {arg : Expr}
    (hexpr : item.expr = .functionCall name arg) (g : List Row) :
    groupEntry item g = aggregate (.ofName name) (g.map (contributed arg)) := by
  cases h with
  | column hcol =>
    rw [hexpr] at hcol
    cases hcol
  | countRows hcount =>
    rw [hexpr] at hcount
    cases hcount
    have hones : (integers (g.map (contributed .star))).length = g.length := by
      induction g with
      | nil => rfl
      | cons row g ih => exact congrArg (· + 1) ih
    simp only [groupEntry, hexpr]
    exact congrArg (fun n : Nat => RowItem.value (.int n)) hones.symm
  | values hint hname hstar =>
    rw [hexpr] at hint
    cases hint
    have hcontributed : contributed arg = fun row => (evaluate arg row).toOption.getD (.value .none) := by
      funext row
      rw [contributed, contribution_eq hstar]
    rw [hcontributed]
    cases arg with
    | star => exact absurd rfl hstar
    | _ => simp only [groupEntry, hexpr]

/-! ## The groups -/

/-- Two rows have the same values in the columns that are grouped by. -/
def sameGroup (groupBy : List String) (row row' : Row) : Prop :=
  keyEq (groupKey groupBy row) (groupKey groupBy row') = true

instance (groupBy : List String) : DecidableRel (sameGroup groupBy) := fun _ _ =>
  inferInstanceAs (Decidable (_ = true))

/-- Values are equal as numbers, as texts, or because both are `None`. -/
theorem Value.eq_iff {a b : Value} : a.eq b = true ↔
    (∃ x y r, a.number? = some x ∧ b.number? = some y ∧ x.rank? = some r ∧ y.rank? = some r) ∨
      (a = .none ∧ b = .none) ∨ ∃ text, a = .str text ∧ b = .str text := by
  have hcompare : ∀ x y : PyFloat, x.compare (fun r r' => decide (r = r')) y = true ↔
      ∃ r, x.rank? = some r ∧ y.rank? = some r := by
    intro x y
    unfold PyFloat.compare
    cases x.rank? <;> cases y.rank? <;> simp [eq_comm]
  cases a <;> cases b <;> simp [Value.eq, Value.number?, hcompare, eq_comm]

theorem Value.eq_trans {a b c : Value} (hab : a.eq b = true) (hbc : b.eq c = true) : a.eq c = true := by
  rw [Value.eq_iff] at hab hbc ⊢
  obtain ⟨x, y, r, hx, hy, hr, hr'⟩ | ⟨rfl, rfl⟩ | ⟨text, rfl, rfl⟩ := hab
  · obtain ⟨y', z, s, hy', hz, hs, hs'⟩ | ⟨rfl, rfl⟩ | ⟨text, rfl, rfl⟩ := hbc
    · rw [hy] at hy'
      cases hy'
      rw [hr'] at hs
      cases hs
      exact .inl ⟨x, z, r, hx, hz, hr, hs'⟩
    · cases hy
    · cases hy
  · exact hbc
  · exact hbc

theorem RowItem.eq_trans {a b c : RowItem} (hab : a.eq b = true) (hbc : b.eq c = true) :
    a.eq c = true := by
  cases a with
  | value v =>
    cases b with
    | value w =>
      cases c with
      | value x => exact Value.eq_trans hab hbc
      | rid r => cases hbc
    | rid r => cases hab
  | rid r =>
    cases b with
    | value w => cases hab
    | rid r' =>
      cases c with
      | value x => cases hbc
      | rid r'' =>
        rw [of_decide_eq_true hab]
        exact hbc

theorem keyEq_trans {k k' k'' : List RowItem} (h : keyEq k k' = true) (h' : keyEq k' k'' = true) :
    keyEq k k'' = true := by
  induction k generalizing k' k'' with
  | nil =>
    cases k' with
    | nil => exact h'
    | cons b k' => cases h
  | cons a k ih =>
    cases k' with
    | nil => cases h
    | cons b k' =>
      cases k'' with
      | nil => cases h'
      | cons c k'' =>
        simp only [keyEq, Bool.and_eq_true] at h h' ⊢
        exact ⟨RowItem.eq_trans h.1 h'.1, ih h.2 h'.2⟩

/-- The state of an item that stands for some rows. -/
def stateOver (item : SelectItem) (rows : List Row) : Option AggState :=
  match item.expr with
  | .functionCall name arg => some (.over (.ofName name) (rows.map (contributed arg)))
  | _ => none

theorem zip_map_eq {α β : Type} (f : α → β) (l : List α) : l.zip (l.map f) = l.map fun a => (a, f a) := by
  rw [← List.zip_map', List.map_id']

/-- The group that stands for some rows. -/
def Group.over (groupBy : List String) (items : List SelectItem) (first : Row) (rows : List Row) :
    Group where
  key := groupKey groupBy first
  values := .ofList (groupBy.map fun col => (col, columnOr first col))
  states := items.map (stateOver · rows)

theorem AggState.over_nil (kind : AggKind) : ({ kind } : AggState) = .over kind [] := by
  cases kind <;> rfl

theorem newGroup_eq (groupBy : List String) (items : List SelectItem) (row : Row) :
    newGroup groupBy items row = .over groupBy items row [] := by
  rw [newGroup, Group.over]
  congr 1
  refine List.map_congr_left fun item _ => ?_
  rw [stateOver]
  split <;> simp only [AggState.over_nil, List.map_nil]

/-- What taking in a row keeps. -/
theorem absorb_over {rows : List Row} (hitems : ∀ item ∈ items, Groupable groupBy rows item)
    (first : Row) (before : List Row) {row : Row} (hrow : row ∈ rows) :
    absorb C A items row (.over groupBy items first before) =
      .ok (.over groupBy items first (before ++ [row])) := by
  have hstates : ((items.zip (items.map (stateOver · before))).mapM fun (item, state) =>
      match item.expr, state with
      | .functionCall _ arg, some state => do return some (← state.add C A (← contribution arg row))
      | _, state => return state) = .ok (items.map (stateOver · (before ++ [row]))) := by
    rw [zip_map_eq]
    refine mapM_eq_ok.mpr ?_
    rw [List.map_map, List.map_map]
    refine List.map_congr_left fun item hitem => ?_
    dsimp only [Function.comp_apply]
    cases hexpr : item.expr with
    | functionCall name arg =>
      obtain ⟨hkind, hrows⟩ := (hitems item hitem).contribution hexpr
      obtain ⟨hok, hint⟩ := hrows row hrow
      simp only [stateOver, hexpr, hok, bind, Except.bind, AggState.add_over hkind _ hint, List.map_append,
        List.map_cons, List.map_nil]
      rfl
    | _ =>
      simp only [stateOver, hexpr]
      rfl
  unfold absorb Group.over
  dsimp only
  rw [hstates]
  rfl

theorem addRow_over {rows : List Row} (hitems : ∀ item ∈ items, Groupable groupBy rows item)
    (groups : List (Row × List Row)) {row : Row} (hrow : row ∈ rows) :
    addRow C A groupBy items (groups.map fun g => .over groupBy items g.1 (members g)) row =
      .ok ((place (sameGroup groupBy) row groups).map fun g => .over groupBy items g.1 (members g)) := by
  induction groups with
  | nil =>
    rw [List.map_nil, addRow, newGroup_eq, absorb_over hitems row [] hrow]
    rfl
  | cons g groups ih =>
    rw [List.map_cons, addRow, place]
    by_cases hsame : sameGroup groupBy g.1 row
    · have hkey : keyEq (Group.over groupBy items g.1 (members g)).key (groupKey groupBy row) = true :=
        hsame
      rw [if_pos hkey, if_pos hsame, absorb_over hitems g.1 (members g) hrow]
      rfl
    · have hkey : ¬keyEq (Group.over groupBy items g.1 (members g)).key (groupKey groupBy row) = true :=
        hsame
      rw [if_neg hkey, if_neg hsame, ih]
      rfl

theorem sameGroup_trans (groupBy : List String) (a b c : Row) (hab : sameGroup groupBy a b)
    (hbc : sameGroup groupBy b c) : sameGroup groupBy a c := keyEq_trans hab hbc

/-- The groups so far partition the rows so far, and their states stand for them. -/
theorem foldlM_addRow {rows : List Row} (hitems : ∀ item ∈ items, Groupable groupBy rows item)
    {before rest : List Row} (hrest : rest ⊆ rows) {groups : List (Row × List Row)}
    (hgroups : IsGrouping (sameGroup groupBy) before groups) :
    ∃ groups', rest.foldlM (addRow C A groupBy items)
        (groups.map fun g => .over groupBy items g.1 (members g)) =
        .ok (groups'.map fun g => .over groupBy items g.1 (members g)) ∧
      IsGrouping (sameGroup groupBy) (before ++ rest) groups' := by
  induction rest generalizing before groups with
  | nil => exact ⟨groups, rfl, by rwa [List.append_nil]⟩
  | cons row rest ih =>
    obtain ⟨hrow, hrest⟩ := List.cons_subset.mp hrest
    have hplaced := hgroups.place (sameGroup_trans groupBy) row
    obtain ⟨groups', hrun, hgroups'⟩ := ih hrest hplaced
    rw [List.append_assoc, List.singleton_append] at hgroups'
    refine ⟨groups', ?_, hgroups'⟩
    rw [List.foldlM_cons, addRow_over hitems groups hrow]
    exact hrun

/-! ## The rows that come out -/

theorem get?_ofList_map {α : Type} (f : String → α) (cols : List String) (col : String) (h : col ∈ cols) :
    (Dict.ofList (cols.map fun col => (col, f col))).get? col = some (f col) := by
  rw [Dict.get?_ofList]
  cases hfind : (cols.map fun col => (col, f col)).reverse.find? (fun x => x.1 = col) with
  | none =>
    have hnone := List.find?_eq_none.mp hfind (col, f col)
      (List.mem_reverse.mpr (List.mem_map_of_mem h))
    simp at hnone
  | some y =>
    have hy : y.1 = col := by simpa using List.find?_some hfind
    obtain ⟨c, -, rfl⟩ := List.mem_map.mp (List.mem_reverse.mp (List.mem_of_find?_eq_some hfind))
    obtain rfl : c = col := hy
    rfl

/-- The row of a group that stands for some rows. -/
theorem groupRow_over {rows : List Row} (hnames : (items.map (Operator.itemName lower)).Nodup)
    (hitems : ∀ item ∈ items, Groupable groupBy rows item) (g : Row × List Row) :
    groupRow A lower items (.over groupBy items g.1 (members g)) =
      .ok (items.map fun item => (Operator.itemName lower item, groupEntry item (members g))) := by
  have hset : ∀ item ∈ items, ∀ out : Row,
      setItem A lower (Group.over groupBy items g.1 (members g)).values out item
        (stateOver item (members g)) =
      .ok (out.set (Operator.itemName lower item) (groupEntry item (members g))) := by
    intro item hitem out
    obtain ⟨name, table, hexpr, hmem⟩ | ⟨name, arg, hexpr⟩ := (hitems item hitem).cases
    · have hcol := get?_ofList_map (columnOr g.1) groupBy name hmem
      have hvalue : columnOr (Group.over groupBy items g.1 (members g)).values name = columnOr g.1 name := by
        rw [columnOr, Group.over, hcol]
        rfl
      simp only [setItem, stateOver, hexpr, sourceName, hvalue, groupEntry]
      rfl
    · obtain ⟨hkind, -⟩ := (hitems item hitem).contribution hexpr
      simp only [setItem, stateOver, hexpr, AggState.result_over hkind,
        (hitems item hitem).groupEntry_eq hexpr]
      rfl
  rw [groupRow]
  have hzip : items.zip (Group.over groupBy items g.1 (members g)).states = _ :=
    zip_map_eq (stateOver · (members g)) items
  rw [hzip, List.foldlM_map,
    Dict.foldlM_set (fun item => (Operator.itemName lower item, groupEntry item (members g))) hset]
  refine congrArg Except.ok (Dict.ofList_of_nodup ?_)
  rwa [List.map_map]

/-- The groups that the output has a row for: those of the rows, and one without rows if there
    are none and nothing is grouped by. -/
def outputGroups (groupBy : List String) (groups : List (Row × List Row)) : List (List Row) :=
  if groups.isEmpty && groupBy.isEmpty then [[]] else groups.map members

/-- Without input and without columns to group by, every item is an aggregate of nothing. -/
theorem emptyRow_eq {rows : List Row} (hnames : (items.map (Operator.itemName lower)).Nodup)
    (hitems : ∀ item ∈ items, Groupable [] rows item) :
    emptyRow A lower items =
      .ok (items.map fun item => (Operator.itemName lower item, groupEntry item [])) := by
  rw [emptyRow, Dict.foldlM_set fun item => (Operator.itemName lower item, groupEntry item [])]
  · refine congrArg Except.ok (Dict.ofList_of_nodup ?_)
    rwa [List.map_map]
  · intro item hitem out
    obtain ⟨name, table, hexpr, hmem⟩ | ⟨name, arg, hexpr⟩ := (hitems item hitem).cases
    · cases hmem
    · obtain ⟨hkind, -⟩ := (hitems item hitem).contribution hexpr
      have hstate : ({ kind := .ofName name } : AggState) = .over (.ofName name) [] := AggState.over_nil _
      simp only [hexpr, hstate, AggState.result_over hkind, (hitems item hitem).groupEntry_eq hexpr]
      rfl

theorem groupRows_over {rows : List Row} (hnames : (items.map (Operator.itemName lower)).Nodup)
    (hitems : ∀ item ∈ items, Groupable groupBy rows item) (groups : List (Row × List Row)) :
    groupRows A lower groupBy items (groups.map fun g => .over groupBy items g.1 (members g)) =
      .ok ((outputGroups groupBy groups).map fun g =>
        items.map fun item => (Operator.itemName lower item, groupEntry item g)) := by
  have hrows : (groups.map fun g => Group.over groupBy items g.1 (members g)).mapM
      (groupRow A lower items) = .ok ((groups.map members).map fun g =>
        items.map fun item => (Operator.itemName lower item, groupEntry item g)) := by
    refine mapM_eq_ok.mpr ?_
    simp only [List.map_map]
    exact List.map_congr_left fun g _ => groupRow_over hnames hitems g
  rw [groupRows, hrows, outputGroups]
  by_cases hempty : groups.isEmpty && groupBy.isEmpty
  · obtain ⟨hgroups, hgroupBy⟩ := Bool.and_eq_true_iff.mp hempty
    obtain rfl := List.isEmpty_iff.mp hgroups
    obtain rfl := List.isEmpty_iff.mp hgroupBy
    simp only [List.map_nil, emptyRow_eq hnames hitems]
    rfl
  · have hempty' : ¬((groups.map fun g => Group.over groupBy items g.1 (members g)).isEmpty &&
        groupBy.isEmpty) = true := by
      rwa [List.isEmpty_map]
    rw [if_neg hempty]
    change (if _ then _ else _ : Except PyError (List Row)) = _
    rw [if_neg hempty']
    rfl

theorem length_outputGroups {rows : List Row} {groups : List (Row × List Row)}
    (h : IsGrouping (sameGroup groupBy) rows groups) :
    ((outputGroups groupBy groups).map List.length).sum = rows.length := by
  rw [outputGroups]
  split
  · rename_i hempty
    obtain ⟨hgroups, -⟩ := Bool.and_eq_true_iff.mp hempty
    obtain rfl := List.isEmpty_iff.mp hgroups
    simp [← h.length_eq]
  · rw [List.map_map]
    exact h.length_eq

/-- Over an operator that yields `rows`, a `HashAggregateOperator` emits one row for each group of
    rows with the same values in the columns that are grouped by, in order of first
    appearance, with the aggregates of exactly the rows of the group; and one row if there is
    no input and nothing is grouped by. -/
theorem Operator.drain_hashAggregate {child : Operator} {rows : List Row}
    (hopens : child.Opens (fun _ => False) rows) (hcloses : child.Closes)
    (hnames : (items.map (Operator.itemName lower)).Nodup)
    (hitems : ∀ item ∈ items, Groupable groupBy rows item)
    (s : (child.hashAggregate C A lower groupBy items).State) :
    ∃ groups, IsGrouping (sameGroup groupBy) rows groups ∧
      ((outputGroups groupBy groups).map List.length).sum = rows.length ∧
      let out := (outputGroups groupBy groups).map fun g =>
        items.map fun item => (Operator.itemName lower item, groupEntry item g)
      (∃ n s', ∀ fuel ≥ n, (child.hashAggregate C A lower groupBy items).drain fuel s = .ok out s') ∧
      ∀ fuel found s', (child.hashAggregate C A lower groupBy items).drain fuel s = .ok found s' →
        found = out := by
  obtain ⟨groups, hrun, hgroups⟩ :=
    foldlM_addRow (C := C) (A := A) hitems (List.Subset.refl rows) (isGrouping_nil (sameGroup groupBy))
  rw [List.nil_append] at hgroups
  refine ⟨groups, hgroups, length_outputGroups hgroups, ?_⟩
  intro out
  have hmade : (rows.foldlM (addRow C A groupBy items) [] >>= groupRows A lower groupBy items) =
      .ok out := by
    rw [List.map_nil] at hrun
    rw [hrun]
    exact groupRows_over hnames hitems groups
  have hready : (child.hashAggregate C A lower groupBy items).Opens (fun _ => False) out :=
    hopens.materialize (by simp [hmade]) (by simp [hmade])
  exact (hready.drain (hcloses.materialize _ _ _) s).returns

/-- SELECT g, COUNT(*), SUM(v) over two groups, with a NULL. -/
theorem Operator.drain_hashAggregate_two :
    let rows : List Row := [[("g", .value (.int 1)), ("v", .value (.int 5))],
      [("g", .value (.int 2)), ("v", .value .none)], [("g", .value (.int 1)), ("v", .value (.int 7))]]
    let items : List SelectItem := [⟨.columnRef "g" none, none⟩, ⟨.functionCall "COUNT" .star, some "n"⟩,
      ⟨.functionCall "SUM" (.columnRef "v" none), some "total"⟩]
    ∃ groups, IsGrouping (sameGroup ["g"]) rows groups ∧
      ∃ n s', ∀ fuel ≥ n,
        ((Operator.leaf rows).hashAggregate .integral .exact id ["g"] items).drain fuel ⟨none, none, 0⟩ =
          .ok ((outputGroups ["g"] groups).map fun g =>
            items.map fun item => (Operator.itemName id item, groupEntry item g)) s' := by
  intro rows items
  have hitems : ∀ item ∈ items, Groupable ["g"] rows item := by
    intro item hitem
    simp only [items, List.mem_cons, List.not_mem_nil, or_false] at hitem
    obtain rfl | rfl | rfl := hitem
    · exact .column rfl (by simp)
    · exact .countRows rfl
    · refine .values rfl (by simp) nofun fun row hrow => ?_
      simp only [rows, List.mem_cons, List.not_mem_nil, or_false] at hrow
      obtain rfl | rfl | rfl := hrow
      · exact ⟨_, rfl, .inr ⟨5, rfl⟩⟩
      · exact ⟨_, rfl, .inl rfl⟩
      · exact ⟨_, rfl, .inr ⟨7, rfl⟩⟩
  have hnames : (items.map (Operator.itemName id)).Nodup := by decide
  obtain ⟨groups, hgroups, -, hdrain, -⟩ := Operator.drain_hashAggregate (C := .integral) (A := .exact)
    (Operator.opens_leaf rows) (Operator.closes_leaf rows) hnames hitems ⟨none, none, 0⟩
  exact ⟨groups, hgroups, hdrain⟩

end Minirel
