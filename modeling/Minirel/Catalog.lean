-- SUMMARY: Table and index metadata, and the pages they lead to.
import Minirel.Index.Keys
import Minirel.Storage.HeapFile
import Minirel.Lib.Dict

/-!
# The catalog

`catalog.py`: which columns a table has, which page its heap starts on and which trees
index it.
-/

namespace Minirel

/-- A stored row. -/
abbrev Tuple := HeapTuple (List Cell)

/-- The bytes of a stored row: its header and its fields. -/
def Tuple.size (tup : Tuple) : Nat := 8 + (tup.payload.map Cell.size).sum

/-- The pages of a database. -/
abbrev Pages := PageFile RawKey Tuple

abbrev PagesM := PageM RawKey Tuple

structure IndexMeta where
  name : String
  column : String
  rootPageId : Nat
  unique : Bool
  keyType : ColumnType
  deriving DecidableEq

structure TableMeta where
  name : String
  schema : Schema
  heapFirstPageId : Nat
  indexes : Dict IndexMeta := []
  deriving DecidableEq

structure Catalog where
  tables : Dict TableMeta
  deriving DecidableEq

namespace Catalog

def getTable (catalog : Catalog) (name : String) : Except PyError TableMeta :=
  match catalog.tables.get? name with
  | some table => .ok table
  | none => .error (.tableNotFoundError name)

def hasTable (catalog : Catalog) (name : String) : Bool := catalog.tables.contains name

/-- Replace what a table's name stands for. -/
def setTable (catalog : Catalog) (table : TableMeta) : Catalog :=
  ⟨catalog.tables.set table.name table⟩

/-- `self.tables[table_name].indexes[index_name]`. -/
def getIndex (catalog : Catalog) (tableName indexName : String) : Except PyError IndexMeta :=
  match (catalog.tables.get? tableName).bind fun table => table.indexes.get? indexName with
  | some idx => .ok idx
  | none => .error (.keyError indexName)

/-- `update_index_root`. -/
def updateIndexRoot (catalog : Catalog) (tableName indexName : String) (rootPageId : Nat) :
    Except PyError Catalog := do
  let table ← catalog.getTable tableName
  let idx ← catalog.getIndex tableName indexName
  return catalog.setTable
    { table with indexes := table.indexes.set indexName { idx with rootPageId } }

end Catalog

/-! ## What statements on rows leave alone -/

/-- An index without the page of its root. -/
def IndexMeta.shape (idx : IndexMeta) : IndexMeta := { idx with rootPageId := 0 }

def TableMeta.shape (table : TableMeta) : TableMeta :=
  { table with indexes := table.indexes.mapValues IndexMeta.shape }

/-- The catalog without the roots of its indexes. -/
def Catalog.shape (catalog : Catalog) : Catalog := ⟨catalog.tables.mapValues TableMeta.shape⟩

section
variable {catalog catalog' : Catalog} {t i : String} {table table' : TableMeta} {idx : IndexMeta}

theorem Catalog.get?_of_shape (h : catalog.shape = catalog'.shape)
    (ht : catalog.tables.get? t = some table) :
    ∃ table', catalog'.tables.get? t = some table' ∧ table'.shape = table.shape := by
  have hget := congrArg (fun c : Catalog => c.tables.get? t) h
  simp only [Catalog.shape, Dict.get?_mapValues, ht, Option.map_some] at hget
  obtain ⟨table', ht', heq⟩ := Option.map_eq_some_iff.mp hget.symm
  exact ⟨table', ht', heq⟩

theorem TableMeta.of_shape (h : table.shape = table'.shape) :
    table.name = table'.name ∧ table.schema = table'.schema ∧
      table.heapFirstPageId = table'.heapFirstPageId := by
  simp only [TableMeta.shape, TableMeta.mk.injEq] at h
  exact ⟨h.1, h.2.1, h.2.2.1⟩

theorem IndexMeta.of_shape {idx' : IndexMeta} (h : idx.shape = idx'.shape) :
    idx.name = idx'.name ∧ idx.column = idx'.column ∧ idx.unique = idx'.unique ∧
      idx.keyType = idx'.keyType := by
  simp only [IndexMeta.shape, IndexMeta.mk.injEq] at h
  exact ⟨h.1, h.2.1, h.2.2.2.1, h.2.2.2.2⟩

theorem TableMeta.get?_of_shape (h : table.shape = table'.shape)
    (hi : table.indexes.get? i = some idx) :
    ∃ idx', table'.indexes.get? i = some idx' ∧ idx'.shape = idx.shape := by
  have hget := congrArg (fun table : TableMeta => table.indexes.get? i) h
  simp only [TableMeta.shape, Dict.get?_mapValues, hi, Option.map_some] at hget
  obtain ⟨idx', hi', heq⟩ := Option.map_eq_some_iff.mp hget.symm
  exact ⟨idx', hi', heq⟩

theorem TableMeta.keys_of_shape (h : table.shape = table'.shape) :
    table.indexes.keys = table'.indexes.keys := by
  have hkeys := congrArg (fun table : TableMeta => table.indexes.keys) h
  simpa only [TableMeta.shape, Dict.keys_mapValues] using hkeys

/-- The catalog with another root for an index. -/
def Catalog.withRoot (catalog : Catalog) (table : TableMeta) (i : String) (idx : IndexMeta)
    (root : Nat) : Catalog :=
  catalog.setTable { table with indexes := table.indexes.set i { idx with rootPageId := root } }

theorem Catalog.updateIndexRoot_eq (ht : catalog.tables.get? t = some table)
    (hi : table.indexes.get? i = some idx) (root : Nat) :
    catalog.updateIndexRoot t i root = .ok (catalog.withRoot table i idx root) := by
  have htable : catalog.getTable t = .ok table := by simp [Catalog.getTable, ht]
  have hindex : catalog.getIndex t i = .ok idx := by simp [Catalog.getIndex, ht, hi]
  simp only [Catalog.updateIndexRoot, htable, hindex]
  rfl

theorem Catalog.shape_withRoot (ht : catalog.tables.get? t = some table) (hname : table.name = t)
    (hi : table.indexes.get? i = some idx) (root : Nat) :
    (catalog.withRoot table i idx root).shape = catalog.shape := by
  have hindexes : (table.indexes.set i { idx with rootPageId := root }).mapValues IndexMeta.shape =
      table.indexes.mapValues IndexMeta.shape := by
    rw [Dict.mapValues_set]
    exact Dict.set_of_get? (by rw [Dict.get?_mapValues, hi]; rfl)
  have hshape : ({ table with
      indexes := table.indexes.set i { idx with rootPageId := root } } : TableMeta).shape =
      table.shape := by
    rw [TableMeta.shape, TableMeta.shape, hindexes]
  rw [Catalog.withRoot, Catalog.setTable, Catalog.shape, Dict.mapValues_set, hshape,
    Dict.set_of_get?]
  · rfl
  · rw [hname, Dict.get?_mapValues, ht]
    rfl

theorem Catalog.get?_withRoot (hname : table.name = t) (root : Nat) {t' : String}
    {table' : TableMeta}
    (h : (catalog.withRoot table i idx root).tables.get? t' = some table') :
    (t' = t ∧ table' =
      { table with indexes := table.indexes.set i { idx with rootPageId := root } }) ∨
    (t' ≠ t ∧ catalog.tables.get? t' = some table') := by
  rw [Catalog.withRoot, Catalog.setTable, Dict.get?_set] at h
  split at h
  · rename_i heq
    exact .inl ⟨heq.symm.trans hname, (Option.some.inj h).symm⟩
  · rename_i hne
    exact .inr ⟨fun heq => hne (hname.trans heq.symm), h⟩

/-- The index under a name, after another root was set. -/
theorem Catalog.index_withRoot (ht : catalog.tables.get? t = some table) (hname : table.name = t)
    {root : Nat} {t' i' : String} {table' : TableMeta}
    {idx' : IndexMeta} (ht' : (catalog.withRoot table i idx root).tables.get? t' = some table')
    (hi' : table'.indexes.get? i' = some idx') :
    (t' = t ∧ i' = i ∧ idx' = { idx with rootPageId := root }) ∨
    (¬(t' = t ∧ i' = i) ∧ ∃ table₀, catalog.tables.get? t' = some table₀ ∧
      table₀.indexes.get? i' = some idx') := by
  obtain ⟨rfl, rfl⟩ | ⟨hne, ht'⟩ := Catalog.get?_withRoot hname root ht'
  · dsimp only at hi'
    rw [Dict.get?_set] at hi'
    split at hi'
    · rename_i heq
      exact .inl ⟨rfl, heq.symm, (Option.some.inj hi').symm⟩
    · rename_i hne
      exact .inr ⟨fun h => hne h.2.symm, table, ht, hi'⟩
  · exact .inr ⟨fun h => hne h.1, table', ht', hi'⟩

theorem Catalog.withRoot_self (ht : catalog.tables.get? t = some table) (hname : table.name = t)
    (hi : table.indexes.get? i = some idx) : catalog.withRoot table i idx idx.rootPageId = catalog := by
  have hindexes : table.indexes.set i { idx with rootPageId := idx.rootPageId } = table.indexes :=
    Dict.set_of_get? hi
  subst hname
  rw [Catalog.withRoot, hindexes]
  exact congrArg Catalog.mk (Dict.set_of_get? ht)

theorem Catalog.withRoot_withRoot (catalog : Catalog) (table : TableMeta) (i : String)
    (idx : IndexMeta) (root root' : Nat) :
    (catalog.withRoot table i idx root).withRoot
      { table with indexes := table.indexes.set i { idx with rootPageId := root } } i
      { idx with rootPageId := root } root' = catalog.withRoot table i idx root' := by
  simp only [Catalog.withRoot, Catalog.setTable, Dict.set_set]

/-- The table and the index whose root was set. -/
theorem Catalog.get?_withRoot_self (hname : table.name = t) (root : Nat) :
    (catalog.withRoot table i idx root).tables.get? t =
        some { table with indexes := table.indexes.set i { idx with rootPageId := root } } ∧
      (table.indexes.set i { idx with rootPageId := root }).get? i =
        some { idx with rootPageId := root } := by
  subst hname
  exact ⟨Dict.get?_set_self _ _ _, Dict.get?_set_self _ _ _⟩

end

end Minirel
