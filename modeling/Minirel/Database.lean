-- SUMMARY: The database: statements over the catalog, the pages and the transactions.
import Minirel.Planner
import Minirel.Session

/-!
# The database

`database.py`: the statements that change it. A statement writes row by row, and what it
has written before it raises stays written. A SELECT changes nothing but the
transactions: without one of its own it begins and ends one.

A table's metadata is one shared object in the source: while a statement runs, its
indexes are looked up again for every row.
-/

namespace Minirel

/-- What a statement logs. -/
inductive LogOp where
  | heapInsert (table : String) (tuple : Tuple) (rid : RID)
  | heapSetXmax (table : String) (rid : RID) (xmax : Nat)
  | btreeInsert (table index : String) (key : Value) (rid : RID)
  deriving DecidableEq

structure Database where
  session : Session LogOp
  catalog : Catalog
  pages : Pages

/-- A computation over the database. -/
abbrev DbM := EStateM PyError Database

structure ExecuteResult where
  rowCount : Nat := 0
  message : String
  deriving DecidableEq, Repr

namespace Database

variable {α : Type}

/-- A database on files that do not exist yet. -/
def fresh : Database := ⟨.fresh, ⟨[]⟩, []⟩

def mgr (db : Database) : TransactionManager LogOp := db.session.mgr

/-! ## Parts of a database -/

def lift (x : Except PyError α) : DbM α := fun db =>
  match x with
  | .ok a => .ok a db
  | .error e => .error e db

def onPages (m : PagesM α) : DbM α := fun db =>
  match m db.pages with
  | .ok a pages => .ok a { db with pages }
  | .error e pages => .error e { db with pages }

/-- A call on the transaction manager. -/
def onManager
    (call : TransactionManager LogOp → Except PyError Transaction × TransactionManager LogOp) :
    DbM Transaction := fun db =>
  let result := call db.mgr
  let db := { db with session := db.session.settle result }
  match result.1 with
  | .ok txn => .ok txn db
  | .error e => .error e db

def begin : DbM Transaction := onManager (·.begin)

def commit (txn : Transaction) : DbM Transaction := onManager (·.commit txn)

def abort (txn : Transaction) : DbM Transaction := onManager (·.abort txn)

/-- `txn.log_operation`. -/
def logOperation (txn : Transaction) (op : LogOp) : DbM Unit := fun db =>
  match db.mgr.wal.logOperation txn.txnId op with
  | .ok wal => .ok () { db with session := { db.session with mgr := { db.mgr with wal } } }
  | .error e => .error e db

def getTable (name : String) : DbM TableMeta := fun db => lift (db.catalog.getTable name) db

def getIndex (tableName indexName : String) : DbM IndexMeta :=
  fun db => lift (db.catalog.getIndex tableName indexName) db

def setTable (table : TableMeta) : DbM Unit :=
  fun db => .ok () { db with catalog := db.catalog.setTable table }

def updateIndexRoot (tableName indexName : String) (rootPageId : Nat) : DbM Unit := fun db =>
  match db.catalog.updateIndexRoot tableName indexName rootPageId with
  | .ok catalog => .ok () { db with catalog }
  | .error e => .error e db

/-! ## Tables and indexes -/

section Statements
variable (C : Conversions)

/-- `Catalog.create_table`. -/
def createTable (name : String) (schema : Schema) : DbM TableMeta := do
  let db ← get
  if db.catalog.hasTable name then throw (.tableAlreadyExistsError name)
  else
    let heap ← onPages HeapFile.create
    let table : TableMeta := { name, schema, heapFirstPageId := heap.firstPageId }
    setTable table
    return table

/-- `Catalog.create_index`. -/
def createIndex (tableName indexName column : String) (unique : Bool) : DbM IndexMeta := do
  let table ← getTable tableName
  if table.indexes.contains indexName then
    throw (.valueError s!"index already exists: {indexName}")
  else
    let col ← lift (table.schema.column column)
    if col.type ≠ .int ∧ col.type ≠ .text then
      throw (.valueError s!"cannot index a {col.type.value} column: {column}")
    else
      let rootPageId ← onPages (BPlusTree.create (.ofColumn C col.type))
      let idx : IndexMeta := { name := indexName, column, rootPageId, unique, keyType := col.type }
      setTable { table with indexes := table.indexes.set indexName idx }
      return idx

def executeCreateTable (table : String) (columns : List Column) : DbM ExecuteResult := do
  let _ ← createTable table ⟨columns⟩
  return { message := s!"CREATE TABLE {table}" }

/-- The loop of `_execute_create_index` over the tuples of the heap. Returns the root page
    id. -/
def backfill (K : KeyType Value RawKey) (schema : Schema) (colIndex : Nat) :
    Nat → List (RID × Tuple) → PagesM Nat
  | root, [] => return root
  | root, (rid, raw) :: tuples => do
    let values ← PageM.lift (decodeRow (tuplePayload raw) schema)
    let key ← PageM.lift (pyGet values colIndex)
    let root ← BPlusTree.insert K false root key rid
    backfill K schema colIndex root tuples

def executeCreateIndex (indexName tableName column : String) (unique : Bool) :
    DbM ExecuteResult := do
  let table ← getTable tableName
  let idx ← createIndex C tableName indexName column unique
  let heap ← onPages (HeapFile.openAt table.heapFirstPageId)
  let colIndex ← lift (table.schema.indexOf column)
  let tuples ← onPages heap.scan
  let root ← onPages (backfill (.ofColumn C idx.keyType) table.schema colIndex idx.rootPageId tuples)
  updateIndexRoot tableName indexName root
  return { message := s!"CREATE INDEX {indexName}" }

/-! ## Rows -/

/-- An expression on the empty row. -/
def evaluateLiteral (e : Expr) : Except PyError Value := do
  match ← evaluate e [] with
  | .value v => return v
  | .rid _ => throw .typeError

/-- `value_map[name]`. -/
def lookup (valueMap : Dict Value) (name : String) : Except PyError Value :=
  match valueMap.get? name with
  | some v => .ok v
  | none => .error (.keyError name)

/-- The body of the loop of `_resolve_insert_values`. -/
def resolveRow (schema : Schema) (columns : List String) (exprs : List Expr) :
    Except PyError (List Value) := do
  if exprs.length ≠ columns.length then
    throw (.valueError
      s!"INSERT has {exprs.length} values but {columns.length} columns were named")
  else
    let items ← (columns.zip exprs).mapM fun (name, e) => do return (name, ← evaluateLiteral e)
    let valueMap : Dict Value := .ofList items
    let missing := schema.names.filter fun c => !valueMap.contains c
    if missing ≠ [] then
      let names := ", ".intercalate (missing.map C.reprOfStr)
      throw (.valueError s!"INSERT is missing values for columns: [{names}]")
    else schema.names.mapM (lookup valueMap)

def resolveInsertValues (schema : Schema) (columns : Option (List String))
    (rows : List (List Expr)) : Except PyError (List (List Value)) :=
  let columns := match columns with
    | none | some [] => schema.names
    | some columns => columns
  rows.mapM (resolveRow C schema columns)

/-- The loop of `_check_unique_constraint` over the RIDs under a key. -/
def checkRids (idx : IndexMeta) (key : Value) (txn : Transaction) (excludeRid : Option RID) :
    List RID → DbM Unit
  | [] => return
  | rid :: rids => do
    if some rid = excludeRid then checkRids idx key txn excludeRid rids
    else
      match ← onPages (HeapFile.get rid) with
      | none => checkRids idx key txn excludeRid rids
      | some raw =>
        let db ← get
        if sees db.mgr txn.snapshot raw then
          let name := C.reprOfStr idx.name
          let value := C.repr key
          throw (.duplicateKeyError s!"duplicate key in unique index {name}: {value}")
        else checkRids idx key txn excludeRid rids

def checkUniqueConstraint (idx : IndexMeta) (key : Value) (txn : Transaction)
    (excludeRid : Option RID) : DbM Unit := do
  if !idx.unique then return
  else
    let rids ← onPages (BPlusTree.search (.ofColumn C idx.keyType) idx.rootPageId key)
    checkRids C idx key txn excludeRid rids

/-- The body of the loop of `_insert_into_indexes`. -/
def insertIntoIndex (tableName : String) (txn : Transaction) (valueMap : Dict Value) (rid : RID)
    (excludeRid : Option RID) (indexName : String) : DbM Unit := do
  let idx ← getIndex tableName indexName
  let key ← lift (lookup valueMap idx.column)
  checkUniqueConstraint C idx key txn excludeRid
  let root ← onPages (BPlusTree.insert (.ofColumn C idx.keyType) false idx.rootPageId key rid)
  updateIndexRoot tableName indexName root
  logOperation txn (.btreeInsert tableName indexName key rid)

def insertIntoIndexes (tableName : String) (txn : Transaction) (valueMap : Dict Value) (rid : RID)
    (excludeRid : Option RID) : List String → DbM Unit
  | [] => return
  | indexName :: rest => do
    insertIntoIndex C tableName txn valueMap rid excludeRid indexName
    insertIntoIndexes tableName txn valueMap rid excludeRid rest

/-- What INSERT and UPDATE do with a new version of a row. -/
def addVersion (table : TableMeta) (txn : Transaction) (values : List Value) (heap : HeapFile) :
    DbM (RID × HeapFile) := do
  let payload ← lift (encodeRow C values table.schema)
  let tup ← lift (packTuple txn.txnId infinityTxn payload)
  let (rid, heap) ← onPages (heap.insert Tuple.size tup)
  logOperation txn (.heapInsert table.name tup rid)
  return (rid, heap)

/-- What UPDATE and DELETE do with the version they replace. -/
def stampVersion (table : TableMeta) (txn : Transaction) (rid : RID) (raw : Tuple) : DbM Unit := do
  let new ← lift (withXmax raw txn.txnId)
  let _ ← onPages (HeapFile.updateInPlace Tuple.size rid new)
  logOperation txn (.heapSetXmax table.name rid txn.txnId)

/-! ## INSERT -/

/-- The body of the loop of `_execute_insert`. -/
def insertRow (table : TableMeta) (txn : Transaction) (values : List Value) (heap : HeapFile) :
    DbM HeapFile := do
  let (rid, heap) ← addVersion C table txn values heap
  let valueMap := Dict.ofList (table.schema.names.zip values)
  insertIntoIndexes C table.name txn valueMap rid none table.indexes.keys
  return heap

def insertRows (table : TableMeta) (txn : Transaction) : List (List Value) → HeapFile → DbM Unit
  | [], _ => return
  | values :: rows, heap => do
    let heap ← insertRow C table txn values heap
    insertRows table txn rows heap

def executeInsert (tableName : String) (columns : Option (List String)) (rows : List (List Expr))
    (txn : Transaction) : DbM ExecuteResult := do
  let table ← getTable tableName
  let heap ← onPages (HeapFile.openAt table.heapFirstPageId)
  let rows ← lift (resolveInsertValues C table.schema columns rows)
  insertRows C table txn rows heap
  return { rowCount := rows.length, message := s!"INSERT {rows.length}" }

/-! ## UPDATE and DELETE -/

/-- Draining `build_row_source_plan`. -/
def matching (table : TableMeta) (where_ : Option Expr) (txn : Transaction) : DbM (List Row) := do
  let db ← get
  onPages (rowSource C db.mgr txn.snapshot table table.name where_)

/-- `value_map` after the assignments of an UPDATE. -/
def assign (valueMap : Dict Value) (assignments : List (String × Expr)) :
    Except PyError (Dict Value) :=
  assignments.foldlM (fun valueMap (col, e) => do return valueMap.set col (← evaluateLiteral e))
    valueMap

/-- The body of the loop of `_execute_update`. -/
def updateRow (table : TableMeta) (assignments : List (String × Expr)) (txn : Transaction)
    (row : Row) (heap : HeapFile) : DbM (Nat × HeapFile) := do
  let rid ← lift (rowRid row)
  match ← onPages (HeapFile.get rid) with
  | none => return (0, heap)
  | some raw =>
    let db ← get
    lift (db.mgr.checkWriteConflict txn (unpackTupleHeader raw).2)
    let oldValues ← lift (decodeRow (tuplePayload raw) table.schema)
    let valueMap ← lift (assign (.ofList (table.schema.names.zip oldValues)) assignments)
    let newValues ← lift (table.schema.names.mapM (lookup valueMap))
    stampVersion table txn rid raw
    let (newRid, heap) ← addVersion C table txn newValues heap
    insertIntoIndexes C table.name txn valueMap newRid (some rid) table.indexes.keys
    return (1, heap)

def updateRows (table : TableMeta) (assignments : List (String × Expr)) (txn : Transaction) :
    List Row → HeapFile → DbM Nat
  | [], _ => return 0
  | row :: rows, heap => do
    let (n, heap) ← updateRow C table assignments txn row heap
    return n + (← updateRows table assignments txn rows heap)

def executeUpdate (tableName : String) (assignments : List (String × Expr))
    (where_ : Option Expr) (txn : Transaction) : DbM ExecuteResult := do
  let table ← getTable tableName
  let heap ← onPages (HeapFile.openAt table.heapFirstPageId)
  let rows ← matching C table where_ txn
  let count ← updateRows C table assignments txn rows heap
  return { rowCount := count, message := s!"UPDATE {count}" }

/-- The body of the loop of `_execute_delete`. -/
def deleteRow (table : TableMeta) (txn : Transaction) (row : Row) : DbM Nat := do
  let rid ← lift (rowRid row)
  match ← onPages (HeapFile.get rid) with
  | none => return 0
  | some raw =>
    let db ← get
    lift (db.mgr.checkWriteConflict txn (unpackTupleHeader raw).2)
    stampVersion table txn rid raw
    return 1

def deleteRows (table : TableMeta) (txn : Transaction) : List Row → DbM Nat
  | [] => return 0
  | row :: rows => do
    let n ← deleteRow table txn row
    return n + (← deleteRows table txn rows)

def executeDelete (tableName : String) (where_ : Option Expr) (txn : Transaction) :
    DbM ExecuteResult := do
  let table ← getTable tableName
  let _ ← onPages (HeapFile.openAt table.heapFirstPageId)
  let rows ← matching C table where_ txn
  let count ← deleteRows table txn rows
  return { rowCount := count, message := s!"DELETE {count}" }

/-! ## The entry point -/

/-- `_dispatch`, for a statement with a transaction. -/
def dispatch (stmt : Statement) (txn : Transaction) : DbM ExecuteResult :=
  match stmt with
  | .createTable table columns => executeCreateTable table columns
  | .createIndex indexName table column unique => executeCreateIndex C indexName table column unique
  | .insert table columns rows => executeInsert C table columns rows txn
  | .update table assignments where_ => executeUpdate C table assignments where_ txn
  | .delete table where_ => executeDelete C table where_ txn

/-- A statement in a transaction of its own, which is committed when it returns and aborted
    when it raises. -/
def autocommit (body : Transaction → DbM α) : DbM α := do
  let txn ← begin
  fun db =>
    match body txn db with
    | .ok a db => (do let _ ← commit txn; return a : DbM α) db
    | .error e db => (do let _ ← abort txn; throw e : DbM α) db

def execute (stmt : Statement) (txn : Option Transaction) : DbM ExecuteResult :=
  match stmt, txn with
  | .createTable table columns, _ => executeCreateTable table columns
  | .createIndex indexName table column unique, _ =>
    executeCreateIndex C indexName table column unique
  | stmt, some txn => dispatch C stmt txn
  | stmt, none => autocommit (dispatch C stmt)

end Statements
end Database
end Minirel
