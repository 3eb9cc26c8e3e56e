-- SUMMARY: The scan and filter operators, drained.
import Minirel.Catalog
import Minirel.Expr
import Minirel.Transaction

/-!
# Scans and filters

`executor.py`: an operator is what draining it yields, the list of its rows. None of
them writes a page.
-/

namespace Minirel

/-- The key under which a row holds the RID it was read from. -/
def ridKey : String := "__rid__"

/-- `_row_from_tuple`: a row holds each column under its qualified and under its bare
    name. -/
def rowFromTuple (alias_ : String) (schema : Schema) (rid : RID) (raw : Tuple) :
    Except PyError Row := do
  let values ← decodeRow (tuplePayload raw) schema
  let row : Row := .ofList
    ((schema.columns.zip values).map fun (col, val) => (s!"{alias_}.{col.name}", .value val))
  let row := row.update ((schema.columns.zip values).map fun (col, val) => (col.name, .value val))
  return row.set ridKey (.rid rid)

/-- The value of a tuple in a column. -/
def columnValue (schema : Schema) (column : String) (raw : Tuple) : Except PyError Value := do
  let values ← decodeRow (tuplePayload raw) schema
  pyGet values (← schema.indexOf column)

theorem rowFromTuple_rid {alias_ : String} {schema : Schema} {rid : RID} {raw : Tuple} {row : Row}
    (h : rowFromTuple alias_ schema rid raw = .ok row) : row.get? ridKey = some (.rid rid) := by
  obtain ⟨values, -, h⟩ := bind_eq_ok.mp h
  cases h
  exact Dict.get?_set_self _ _ _

/-- `row["__rid__"]`. -/
def rowRid (row : Row) : Except PyError RID :=
  match row.get? ridKey with
  | some (.rid rid) => .ok rid
  | some (.value _) => .error .typeError
  | none => .error (.keyError ridKey)

section Operators
variable {π : Type} (mgr : TransactionManager π) (snapshot : Snapshot)

/-- Whether the snapshot sees a tuple. -/
def sees (raw : Tuple) : Bool :=
  let (xmin, xmax) := unpackTupleHeader raw
  mgr.isVisible xmin xmax snapshot

/-- `SeqScanOperator`. -/
def seqScan (heap : HeapFile) (schema : Schema) (alias_ : String) : PagesM (List Row) := do
  let tuples ← heap.scan
  PageM.lift ((tuples.filter fun (_, raw) => sees mgr snapshot raw).mapM
    fun (rid, raw) => rowFromTuple alias_ schema rid raw)

/-- The loop of `IndexScanOperator` over the pairs of the range scan. -/
def fetchRows (schema : Schema) (alias_ : String) : List (Value × RID) → PagesM (List Row)
  | [] => return []
  | (_, rid) :: pairs => do
    match ← HeapFile.get rid with
    | none => fetchRows schema alias_ pairs
    | some raw =>
      if sees mgr snapshot raw then
        let row ← PageM.lift (rowFromTuple alias_ schema rid raw)
        return row :: (← fetchRows schema alias_ pairs)
      else fetchRows schema alias_ pairs

/-- A bound of a range scan: `None` is an open end. -/
def bound : Value → Option Value
  | .none => none
  | v => some v

/-- `IndexScanOperator`. -/
def indexScan (K : KeyType Value RawKey) (root : Nat) (schema : Schema) (alias_ : String)
    (start stop : Value) : PagesM (List Row) := do
  let pairs ← BPlusTree.rangeScan K root (bound start) (bound stop)
  fetchRows mgr snapshot schema alias_ pairs

end Operators

/-- `FilterOperator`. -/
def filterRows (predicate : Expr) : List Row → Except PyError (List Row)
  | [] => .ok []
  | row :: rows => do
    if ← holds predicate row then return row :: (← filterRows predicate rows)
    else filterRows predicate rows

end Minirel
