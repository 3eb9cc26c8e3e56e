-- SUMMARY: The plan of a scan with a WHERE clause: one equality may go to an index.
import Minirel.Executor

/-!
# Plans

`planner.py`, as far as UPDATE and DELETE use it: the rows of a table that a WHERE
clause selects. A conjunct `column = literal` on an indexed column is dropped and an
index scan takes its place.
-/

namespace Minirel

/-! ## Conjuncts -/

def conjuncts : Expr → List Expr
  | .binaryOp .and left right => conjuncts left ++ conjuncts right
  | e => [e]

def flattenAnd : Option Expr → List Expr
  | none => []
  | some e => conjuncts e

def rebuildAnd : List Expr → Option Expr
  | [] => none
  | c :: cs => some (cs.foldl (fun e c => .binaryOp .and e c) c)

/-! ## Pushing an equality down -/

/-- One order of the two sides of an equality. -/
def matchingPair (alias_ : String) (indexedColumns : Dict String) :
    Expr × Expr → Option (String × Value)
  | (.columnRef name table, .literal value) =>
    if table.isSome ∧ table ≠ some alias_ then none
    else (indexedColumns.get? name).map fun index => (index, value)
  | _ => none

def matchingEquality (conjunct : Expr) (alias_ : String) (indexedColumns : Dict String) :
    Option (String × Value) :=
  match conjunct with
  | .binaryOp .eq left right =>
    (matchingPair alias_ indexedColumns (left, right)).or
      (matchingPair alias_ indexedColumns (right, left))
  | _ => none

def indexedColumns (table : TableMeta) : Dict String :=
  .ofList (table.indexes.map fun (name, idx) => (idx.column, name))

/-- The first conjunct that an index serves: the conjuncts before it, the conjunct, the
    name of the index with the literal, and the conjuncts after it. -/
def pushdown (alias_ : String) (indexed : Dict String) :
    List Expr → Option (List Expr × Expr × (String × Value) × List Expr)
  | [] => none
  | c :: cs =>
    match matchingEquality c alias_ indexed with
    | some found => some ([], c, found, cs)
    | none => (pushdown alias_ indexed cs).map fun (before, rest) => (c :: before, rest)

/-- What `build_base_scan` decides: how to scan, and what is left of the WHERE clause. -/
inductive BaseScan where
  | seq (residual : Option Expr)
  | index (idx : IndexMeta) (value : Value) (residual : Option Expr)

def buildBaseScan (table : TableMeta) (alias_ : String) (where_ : Option Expr) :
    Except PyError BaseScan :=
  match pushdown alias_ (indexedColumns table) (flattenAnd where_) with
  | none => .ok (.seq where_)
  | some (before, _, (name, value), after) =>
    match table.indexes.get? name with
    | some idx => .ok (.index idx value (rebuildAnd (before ++ after)))
    | none => .error (.keyError name)

section Plan
variable {π : Type} (C : Conversions) (mgr : TransactionManager π) (snapshot : Snapshot)

/-- A filter on top of a scan, if anything is left to filter. -/
def filtered (residual : Option Expr) (rows : List Row) : Except PyError (List Row) :=
  match residual with
  | none => .ok rows
  | some predicate => filterRows predicate rows

/-- Draining `build_row_source_plan`. -/
def rowSource (table : TableMeta) (alias_ : String) (where_ : Option Expr) : PagesM (List Row) := do
  let heap ← HeapFile.openAt table.heapFirstPageId
  match ← PageM.lift (buildBaseScan table alias_ where_) with
  | .seq residual =>
    let rows ← seqScan mgr snapshot heap table.schema alias_
    PageM.lift (filtered residual rows)
  | .index idx value residual =>
    let rows ← indexScan mgr snapshot (.ofColumn C idx.keyType) idx.rootPageId table.schema alias_
      value value
    PageM.lift (filtered residual rows)

/-- A sequential scan of the same heap under the whole WHERE clause. -/
def seqSource (table : TableMeta) (alias_ : String) (where_ : Option Expr) : PagesM (List Row) := do
  let heap ← HeapFile.openAt table.heapFirstPageId
  let rows ← seqScan mgr snapshot heap table.schema alias_
  PageM.lift (filtered where_ rows)

end Plan

end Minirel
