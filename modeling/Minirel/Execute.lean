-- SUMMARY: What whole statements do to the content of a database.
import Minirel.Statements

/-!
# Whole statements

Which rows a statement is about is settled before it writes the first one: the values an
INSERT resolves, the versions that the WHERE of an UPDATE or a DELETE matches. From there
on it writes row by row. CREATE TABLE and CREATE INDEX are here too.
-/

namespace Minirel
namespace Database

variable {α : Type} {C : Conversions} {tr : Tracked} {taken : Prop} {db db' : Database} {v : View}
  {table : TableMeta} {txn : Transaction}

/-! ## INSERT, UPDATE and DELETE -/

/-- The table and the rows a statement is about. -/
inductive Targets (C : Conversions) (txn : Transaction) (db : Database) :
    Statement → TableMeta → List RowAct → Prop where
  | insert {t : String} {columns : Option (List String)} {exprs : List (List Expr)}
      {table : TableMeta} {rows : List (List Value)} (ht : db.catalog.getTable t = .ok table)
      (hrows : resolveInsertValues C table.schema columns exprs = .ok rows) :
      Targets C txn db (.insert t columns exprs) table (rows.map .insert)
  | update {t : String} {assignments : List (String × Expr)} {where_ : Option Expr}
      {table : TableMeta} {rows : List Row} {rids : List RID} (ht : db.catalog.getTable t = .ok table)
      (hrows : matching C table where_ txn db = .ok rows db)
      (hrids : rows.map rowRid = rids.map .ok) :
      Targets C txn db (.update t assignments where_) table (rids.map (.update assignments))
  | delete {t : String} {where_ : Option Expr} {table : TableMeta} {rows : List Row}
      {rids : List RID} (ht : db.catalog.getTable t = .ok table)
      (hrows : matching C table where_ txn db = .ok rows db)
      (hrids : rows.map rowRid = rids.map .ok) :
      Targets C txn db (.delete t where_) table (rids.map .delete)

/-- What a row puts into the tracked indexes is faithful. -/
def ActFaithful (C : Conversions) (tr : Tracked) (table : TableMeta) (db : Database) : RowAct → Prop
  | .insert values => FaithfulKeys C tr table (rowMap table values)
  | .update assignments rid => ∀ raw, HeapFile.get rid db.pages = .ok (some raw) db.pages →
      AssignFaithful C tr table assignments raw.payload
  | .delete _ => True

/-- What a statement puts into the tracked indexes is faithful. -/
def StmtFaithful (C : Conversions) (tr : Tracked) (stmt : Statement) (txn : Transaction)
    (db : Database) : Prop :=
  ∀ table acts, Targets C txn db stmt table acts → ∀ a ∈ acts, ActFaithful C tr table db a

/-- Every version that a statement stores is let into every index. -/
def StmtAdmitted (C : Conversions) (tr : Tracked) (txn : Transaction) (db : Database) :
    Statement → Prop
  | .insert t columns exprs => ∀ table heap rows, db.catalog.getTable t = .ok table →
      HeapFile.openAt table.heapFirstPageId db.pages = .ok heap db.pages →
      resolveInsertValues C table.schema columns exprs = .ok rows →
      InsertAdmitted C tr table txn rows heap db
  | .update t assignments where_ => ∀ table heap rows, db.catalog.getTable t = .ok table →
      HeapFile.openAt table.heapFirstPageId db.pages = .ok heap db.pages →
      matching C table where_ txn db = .ok rows db →
      UpdateAdmitted C tr table assignments txn rows heap db
  | _ => True

/-- A statement on rows has returned. -/
def Done (C : Conversions) (tr : Tracked) (stmt : Statement) (txn : Transaction) (db : Database)
    (v : View) (r : ExecuteResult) (db' : Database) : Prop :=
  ∃ table acts v', Targets C txn db stmt table acts ∧
    db.catalog.tables.get? table.name = some table ∧ r.rowCount = acts.length ∧
    Written C tr acts db v table txn db' v'

/-- A statement on rows has raised: before its first row, or at one of them. -/
def Failed (C : Conversions) (tr : Tracked) (taken : Prop) (stmt : Statement) (txn : Transaction)
    (db : Database) (v : View) (db' : Database) : Prop :=
  (db' = db ∧ ∀ table acts, ¬Targets C txn db stmt table acts) ∨
  ∃ table acts v', Targets C txn db stmt table acts ∧
    db.catalog.tables.get? table.name = some table ∧
    Raised C tr taken acts db v table txn db' v'

theorem getTable_eq_ok {catalog : Catalog} {t : String} :
    catalog.getTable t = .ok table ↔ catalog.tables.get? t = some table := by
  unfold Catalog.getTable
  cases catalog.tables.get? t <;> simp

theorem Sound.current (hs : Sound C tr db v) {t : String} (ht : db.catalog.getTable t = .ok table) :
    table.name = t ∧ db.catalog.tables.get? table.name = some table ∧ Current db table := by
  have hget := getTable_eq_ok.mp ht
  obtain rfl := hs.layout.name_eq hget
  exact ⟨rfl, hget, table, hget, rfl⟩

theorem Sound.openAt (hs : Sound C tr db v) (ht : db.catalog.tables.get? table.name = some table) :
    HeapFile.openAt table.heapFirstPageId db.pages =
      .ok ⟨table.heapFirstPageId, v.last table.name⟩ db.pages := (hs.layout.heap ht).openAt

theorem wp_getTable {t : String} {Q : TableMeta → Database → Prop} {E : PyError → Database → Prop} :
    wp (getTable t) Q E db ↔ (∀ table, db.catalog.getTable t = .ok table → Q table db) ∧
      ∀ e, db.catalog.getTable t = .error e → E e db := wp_lift

theorem resolveRow_eq_ok {schema : Schema} {columns : List String} {exprs : List Expr}
    {values : List Value} (h : resolveRow C schema columns exprs = .ok values) :
    ∃ valueMap, schema.names.mapM (lookup valueMap) = .ok values := by
  unfold resolveRow at h
  split at h
  · cases h
  · obtain ⟨items, -, h⟩ := bind_eq_ok.mp h
    dsimp only at h
    split at h
    · cases h
    · exact ⟨_, h⟩

/-- The values of the columns are found again under the names of the columns. -/
theorem named_of_lookup {values : List Value} {valueMap : Dict Value}
    (h : table.schema.names.mapM (lookup valueMap) = .ok values) : Named table values := by
  have hmap := mapM_eq_ok.mp h
  have hlen : table.schema.names.length = values.length := by
    simpa using congrArg List.length hmap
  have hagrees : ∀ x ∈ table.schema.names.zip values, valueMap.get? x.1 = some x.2 := by
    rintro ⟨name, value⟩ hx
    obtain ⟨n, hn⟩ := List.mem_iff_getElem?.mp hx
    obtain ⟨hname, hvalue⟩ : table.schema.names[n]? = some name ∧ values[n]? = some value := by
      simpa [List.zip, List.getElem?_zipWith_eq_some] using hn
    have hn := congrArg (·[n]?) hmap
    simp only [List.getElem?_map, hname, hvalue, Option.map_some, Option.some.injEq] at hn
    exact lookup_eq_ok.mp hn
  refine mapM_eq_ok.mpr (List.ext_getElem (by simp [hlen]) fun n h₁ h₂ => ?_)
  simp only [List.length_map] at h₁ h₂
  simp only [List.getElem_map]
  refine lookup_eq_ok.mpr (Dict.get?_ofList_of_agrees hagrees ?_)
  have hz : n < (table.schema.names.zip values).length := by
    rw [List.length_zip]
    omega
  have := List.getElem_mem hz
  rwa [List.getElem_zip] at this

/-- What INSERT resolves has one value for every column name. -/
theorem named_of_resolve {columns : Option (List String)} {exprs : List (List Expr)}
    {rows : List (List Value)} (h : resolveInsertValues C table.schema columns exprs = .ok rows) :
    ∀ values ∈ rows, Named table values := by
  intro values hvalues
  have hmem : (Except.ok values : Except PyError (List Value)) ∈ rows.map .ok :=
    List.mem_map_of_mem hvalues
  rw [← mapM_eq_ok.mp h] at hmem
  obtain ⟨exprs, -, hrow⟩ := List.mem_map.mp hmem
  obtain ⟨valueMap, hvalueMap⟩ := resolveRow_eq_ok hrow
  exact named_of_lookup hvalueMap

section
variable {t : String} {columns : Option (List String)} {exprs : List (List Expr)}
  {assignments : List (String × Expr)} {where_ : Option Expr}

theorem wp_executeInsert (hs : Sound C tr db v) (hid : txn.txnId < 2 ^ 32)
    (hfaithful : StmtFaithful C tr (.insert t columns exprs) txn db)
    (htaken : taken → StmtAdmitted C tr txn db (.insert t columns exprs)) :
    wpIf Room (executeInsert C t columns exprs txn)
      (Done C tr (.insert t columns exprs) txn db v)
      (fun _ db' => Failed C tr taken (.insert t columns exprs) txn db v db') db := by
  unfold executeInsert
  refine wp_bind.mpr (wp_getTable.mpr ⟨fun table ht => ?_, fun e herr _ => .inl ⟨rfl, ?_⟩⟩)
  swap
  · intro table acts htargets
    cases htargets with
    | insert ht hrows =>
      rw [herr] at ht
      cases ht
  obtain ⟨rfl, hself, hc⟩ := hs.current ht
  have hopen : onPages (HeapFile.openAt table.heapFirstPageId) db = _ :=
    onPages_eq_ok.mpr ⟨_, hs.openAt hself, rfl⟩
  refine wp_bind.mpr ((wp_of_ok hopen).mpr ?_)
  refine wp_bind.mpr (wp_lift.mpr ⟨fun rows hrows => ?_, fun e herr _ => .inl ⟨rfl, ?_⟩⟩)
  swap
  · intro table' acts htargets
    cases htargets with
    | insert ht' hrows =>
      obtain rfl := Except.ok.inj (ht.symm.trans ht')
      rw [herr] at hrows
      cases hrows
  have htargets : Targets C txn db (.insert table.name columns exprs) table (rows.map .insert) :=
    .insert ht hrows
  have hfaithful' : ∀ values ∈ rows, FaithfulKeys C tr table (rowMap table values) :=
    fun values hvalues => hfaithful table _ htargets (.insert values) (List.mem_map_of_mem hvalues)
  refine (wp_insertRows hs hc hid (named_of_resolve hrows) hfaithful' fun h =>
    htaken h table _ rows ht (hs.openAt hself) hrows).bind (fun _ => (Reads.pure _).sheds) ?_ ?_
  · rintro ⟨⟩ db₁ - ⟨v₁, hwritten⟩
    exact wp.wpIf ⟨table, _, v₁, htargets, hself, by simp, hwritten⟩
  · rintro e db₁ - ⟨v₁, hraised⟩
    exact .inr ⟨table, _, v₁, htargets, hself, hraised⟩

/-- The rows of an UPDATE or a DELETE, and the RIDs they were read from. -/
theorem Sound.matching {rows : List Row} (hs : Sound C tr db v)
    (ht : db.catalog.tables.get? table.name = some table)
    (hrun : matching C table where_ txn db = .ok rows db) :
    ∃ rids, Rooted v.toContent table.name rows rids :=
  (exists_rooted (matching_readFrom hs ht hrun)).imp fun _ h => h.1

theorem wp_executeUpdate (hs : Sound C tr db v) (hid : txn.txnId < 2 ^ 32)
    (hfaithful : StmtFaithful C tr (.update t assignments where_) txn db)
    (htaken : taken → StmtAdmitted C tr txn db (.update t assignments where_)) :
    wpIf Room (executeUpdate C t assignments where_ txn)
      (Done C tr (.update t assignments where_) txn db v)
      (fun _ db' => Failed C tr taken (.update t assignments where_) txn db v db') db := by
  unfold executeUpdate
  refine wp_bind.mpr (wp_getTable.mpr ⟨fun table ht => ?_, fun e herr _ => .inl ⟨rfl, ?_⟩⟩)
  swap
  · intro table acts htargets
    cases htargets with
    | update ht hrows hrids =>
      rw [herr] at ht
      cases ht
  obtain ⟨rfl, hself, hc⟩ := hs.current ht
  have hopen : onPages (HeapFile.openAt table.heapFirstPageId) db = _ :=
    onPages_eq_ok.mpr ⟨_, hs.openAt hself, rfl⟩
  refine wp_bind.mpr ((wp_of_ok hopen).mpr ?_)
  refine wp_bind.mpr ((reads_matching table where_ txn).wp (fun rows hrows => ?_)
    fun e herr _ => .inl ⟨rfl, ?_⟩)
  swap
  · intro table' acts htargets
    cases htargets with
    | update ht' hrows hrids =>
      obtain rfl := Except.ok.inj (ht.symm.trans ht')
      rw [herr] at hrows
      cases hrows
  obtain ⟨rids, hrooted⟩ := hs.matching hself hrows
  have htargets : Targets C txn db (.update table.name assignments where_) table
      (rids.map (.update assignments)) := .update ht hrows hrooted.1
  have hfaithful' : ∀ rid ∈ rids, ∀ raw, (rid, raw) ∈ v.tuples table.name →
      AssignFaithful C tr table assignments raw.payload := fun rid hrid raw hraw =>
    hfaithful table _ htargets _ (List.mem_map_of_mem hrid) raw ((hs.layout.heap hself).get hraw)
  refine (wp_updateRows hs hc hid hrooted hfaithful' fun h =>
    htaken h table _ rows ht (hs.openAt hself) hrows).bind (fun _ => (Reads.pure _).sheds) ?_ ?_
  · rintro n db₁ - ⟨rfl, v₁, hwritten⟩
    exact wp.wpIf ⟨table, _, v₁, htargets, hself, by simp, hwritten⟩
  · rintro e db₁ - ⟨v₁, hraised⟩
    exact .inr ⟨table, _, v₁, htargets, hself, hraised⟩

theorem wp_executeDelete (hs : Sound C tr db v) (hid : txn.txnId < 2 ^ 32) :
    wp (executeDelete C t where_ txn)
      (Done C tr (.delete t where_) txn db v)
      (fun _ db' => Failed C tr taken (.delete t where_) txn db v db') db := by
  unfold executeDelete
  refine wp_bind.mpr (wp_getTable.mpr ⟨fun table ht => ?_, fun e herr => .inl ⟨rfl, ?_⟩⟩)
  swap
  · intro table acts htargets
    cases htargets with
    | delete ht hrows hrids =>
      rw [herr] at ht
      cases ht
  obtain ⟨rfl, hself, hc⟩ := hs.current ht
  have hopen : onPages (HeapFile.openAt table.heapFirstPageId) db = _ :=
    onPages_eq_ok.mpr ⟨_, hs.openAt hself, rfl⟩
  refine wp_bind.mpr ((wp_of_ok hopen).mpr ?_)
  refine wp_bind.mpr ((reads_matching table where_ txn).wp (fun rows hrows => ?_)
    fun e herr => .inl ⟨rfl, ?_⟩)
  swap
  · intro table' acts htargets
    cases htargets with
    | delete ht' hrows hrids =>
      obtain rfl := Except.ok.inj (ht.symm.trans ht')
      rw [herr] at hrows
      cases hrows
  obtain ⟨rids, hrooted⟩ := hs.matching hself hrows
  have htargets : Targets C txn db (.delete table.name where_) table (rids.map .delete) :=
    .delete ht hrows hrooted.1
  have hdelete : wp (deleteRows table txn rows) _
      (fun _ db' => ∃ v', Raised C tr taken (rids.map .delete) db v table txn db' v') db :=
    wp_deleteRows hs hc hid hrooted
  refine hdelete.bind ?_ ?_
  · rintro n db₁ ⟨rfl, v₁, hwritten⟩
    exact ⟨table, _, v₁, htargets, hself, by simp, hwritten⟩
  · rintro e db₁ ⟨v₁, hraised⟩
    exact .inr ⟨table, _, v₁, htargets, hself, hraised⟩

end

/-! ## CREATE TABLE -/

theorem sheds_executeCreateTable (t : String) (columns : List Column) :
    Sheds Room (executeCreateTable t columns) := by
  refine .bind (.bind Reads.get.sheds fun db => ?_) fun _ => (Reads.pure _).sheds
  split
  · exact (Reads.throw _).sheds
  · refine .bind (sheds_onPages HeapFile.extends_create) fun heap => .bind ?_ fun _ => (Reads.pure _).sheds
    exact fun db => id

/-- A table is new and empty, or nothing has changed. -/
theorem wp_executeCreateTable {t : String} {columns : List Column} (hs : Sound C tr db v) :
    wpIf Room (executeCreateTable t columns)
      (fun _ db' => db'.session = db.session ∧ db.catalog.tables.get? t = none ∧
        db'.catalog = db.catalog.setTable
          { name := t, schema := ⟨columns⟩, heapFirstPageId := db.pages.length } ∧
        Sound C tr db' (v.newTable t db.pages.length))
      (fun _ db' => db' = db) db := by
  refine (sheds_executeCreateTable t columns).start fun hroom => wp.wpIf ?_
  unfold executeCreateTable createTable
  rw [wp_bind, wp_bind, wp_get]
  split
  · rfl
  · rename_i hnone
    obtain ⟨hrun, hl, ho⟩ := hs.layout.createTable (C := C) (t := t) hroom ⟨columns⟩
    have hcreate : onPages HeapFile.create db = _ := onPages_eq_ok.mpr ⟨_, hrun, rfl⟩
    rw [wp_bind, wp_of_ok hcreate]
    refine ⟨rfl, ?_, rfl, hl, ho hs.ordered⟩
    simpa [Catalog.hasTable, Dict.contains] using hnone

/-! ## CREATE INDEX -/

/-- The entries of an index that has just been made of these tuples. -/
def Filled (C : Conversions) (schema : Schema) (idx : IndexMeta) : List (RID × Tuple) →
    List (RawKey × RID) → Prop :=
  List.Forall₂ fun x e => e.2 = x.1 ∧ HasKey C schema idx x.2 e.1

/-- An index can be made of these tuples: every one of them has a key, and none has too many. -/
structure Fillable (C : Conversions) (schema : Schema) (idx : IndexMeta)
    (tuples : List (RID × Tuple)) : Prop where
  keys : ∀ x ∈ tuples, ∃ k, HasKey C schema idx x.2 k
  few : ∀ es, Filled C schema idx tuples es →
    ∀ k, (BPlusTree.ridsUnder es k).length ≤ BPlusTree.maxLeafKeys (.ofColumn C idx.keyType)

theorem HasKey.unique {schema : Schema} {idx : IndexMeta} {tup : Tuple} {k k' : RawKey}
    (h : HasKey C schema idx tup k) (h' : HasKey C schema idx tup k') : k = k' := by
  obtain ⟨value, hvalue, hk⟩ := h
  obtain ⟨value', hvalue', hk'⟩ := h'
  obtain rfl := Except.ok.inj (hvalue.symm.trans hvalue')
  exact Except.ok.inj (hk.encode_eq.symm.trans hk'.encode_eq)

theorem exists_filled {schema : Schema} {idx : IndexMeta} {tuples : List (RID × Tuple)}
    (h : ∀ x ∈ tuples, ∃ k, HasKey C schema idx x.2 k) : ∃ es, Filled C schema idx tuples es := by
  induction tuples with
  | nil => exact ⟨[], .nil⟩
  | cons x tuples ih =>
    obtain ⟨⟨k, hk⟩, hrest⟩ := List.forall_mem_cons.mp h
    obtain ⟨es, hes⟩ := ih hrest
    exact ⟨(k, x.1) :: es, .cons ⟨rfl, hk⟩ hes⟩

/-- The key of a tuple is read as its column is. -/
theorem wp_key {schema : Schema} {idx : IndexMeta} {n : Nat} {tup : Tuple} {α : Type}
    {f : Value → PagesM α} {Q : α → Pages → Prop} {E : PyError → Pages → Prop} {s : Pages}
    (htypes : tup.payload.map Cell.type = schema.columns.map (·.type))
    (hn : schema.indexOf idx.column = .ok n) (hlt : n < schema.columns.length)
    (h : ∀ value, columnValue schema idx.column tup = .ok value → wp (f value) Q E s) :
    wp (do
      let values ← PageM.lift (decodeRow (tuplePayload tup) schema)
      let key ← PageM.lift (pyGet values n)
      f key) Q E s := by
  have hdecode : decodeRow (tuplePayload tup) schema = .ok (rowValues tup) := decodeRow_eq htypes
  have hlen : n < (rowValues tup).length := by
    have := congrArg List.length htypes
    simp only [List.length_map] at this
    rw [rowValues, List.length_map]
    omega
  have hget : pyGet (rowValues tup) n = .ok (rowValues tup)[n] := by
    simp [pyGet, List.getElem?_eq_getElem hlen]
  rw [hdecode]
  refine wp_bind.mpr ((wp_of_ok (PageM.lift_ok _ s)).mpr ?_)
  rw [hget]
  refine wp_bind.mpr ((wp_of_ok (PageM.lift_ok _ s)).mpr (h _ ?_))
  simp only [columnValue, hdecode, hn, bind, Except.bind, hget]

/-- What making an index leaves of a view: everything but the entries of the index. -/
structure SameBut (v v' : View) (t i : String) : Prop where
  tuples : v'.tuples = v.tuples
  last : v'.last = v.last
  entries : ∀ t' i', ¬(t' = t ∧ i' = i) → v'.entries t' i' = v.entries t' i'

theorem SameBut.refl (v : View) (t i : String) : SameBut v v t i := ⟨rfl, rfl, fun _ _ _ => rfl⟩

theorem SameBut.trans {v v₁ v₂ : View} {t i : String} (h : SameBut v v₁ t i)
    (h' : SameBut v₁ v₂ t i) : SameBut v v₂ t i :=
  ⟨h'.tuples.trans h.tuples, h'.last.trans h.last,
    fun t' i' hne => (h'.entries t' i' hne).trans (h.entries t' i' hne)⟩

section Backfill
variable {t i : String} {idx : IndexMeta} {n r₀ : Nat} {tuples : List (RID × Tuple)}

/-- Any root of an index that is not tracked will do. -/
theorem Sound.setRoot {root : Nat} (hs : Sound C tr db v) (ht : db.catalog.tables.get? t = some table)
    (hi : table.indexes.get? i = some idx) (hroot : v.own (.index t i) root)
    (htr : ¬tr t i idx.keyType) :
    Sound C tr { db with catalog := db.catalog.withRoot table i idx root } v := by
  refine ⟨hs.layout.setRoot ht hi hroot, fun t' table' i' idx' ht' hi' htr' => ?_⟩
  obtain ⟨rfl, rfl, rfl⟩ | ⟨-, table₀, ht₀, hi₀⟩ :=
    Catalog.index_withRoot ht (hs.layout.name_eq ht) ht' hi'
  · exact absurd htr' htr
  · exact hs.ordered ht₀ hi₀ htr'

theorem extends_backfill (K : KeyType Value RawKey) (schema : Schema) (n root : Nat)
    (tuples : List (RID × Tuple)) : Extends (backfill K schema n root tuples) := by
  induction tuples generalizing root with
  | nil => exact .pure _
  | cons x tuples ih =>
    exact .bind (.lift _) fun _ => .bind (.lift _) fun _ =>
      .bind (BPlusTree.extends_insert _ _ _ _) fun _ => ih _

/-- The tree takes one tuple after the other. It refuses one only if it is not tracked. -/
theorem wp_backfill (hs : Sound C tr db v) (ht : db.catalog.tables.get? t = some table)
    (hi : table.indexes.get? i = some idx) (hn : table.schema.indexOf idx.column = .ok n)
    (hlt : n < table.schema.columns.length) (hr₀ : v.own (.index t i) r₀)
    (hmem : ∀ x ∈ tuples, x ∈ v.tuples t) (hnodup : (tuples.map (·.1)).Nodup)
    (hlacks : ∀ x ∈ tuples, v.Lacks db.pages t i x.1)
    (hkeys : tr t i idx.keyType → ∀ x ∈ tuples, ∃ k, HasKey C table.schema idx x.2 k)
    (hfew : tr t i idx.keyType → ∀ es, Filled C table.schema idx tuples es → ∀ k,
      (BPlusTree.ridsUnder (es ++ v.entries t i) k).length ≤
        BPlusTree.maxLeafKeys (.ofColumn C idx.keyType)) :
    wpIf (fun s => s.length < invalidPageId)
      (backfill (.ofColumn C idx.keyType) table.schema n idx.rootPageId tuples)
      (fun root s' => ∃ v',
        Sound C tr { db with pages := s', catalog := db.catalog.withRoot table i idx root } v' ∧
        SameBut v v' t i ∧ (tr t i idx.keyType → ∃ es, Filled C table.schema idx tuples es ∧
          (v'.entries t i).Perm (es ++ v.entries t i)))
      (fun _ s' => ¬tr t i idx.keyType ∧ ∃ v',
        Sound C tr { db with pages := s', catalog := db.catalog.withRoot table i idx r₀ } v' ∧
        SameBut v v' t i) db.pages := by
  induction tuples generalizing db v table idx with
  | nil =>
    refine wp.wpIf ⟨v, ?_, .refl v t i, fun _ => ⟨[], .nil, .refl _⟩⟩
    rw [Catalog.withRoot_self ht (hs.layout.name_eq ht) hi]
    exact hs
  | cons x tuples ih =>
    obtain ⟨rid, raw⟩ := x
    rw [List.forall_mem_cons] at hmem hlacks
    obtain ⟨hnew, hnodup⟩ := List.nodup_cons.mp hnodup
    have hname := hs.layout.name_eq ht
    refine wp_key (hs.layout.conforms ht _ hmem.1).types hn hlt fun value hvalue => ?_
    have hkey : tr t i idx.keyType → ∃ k, BPlusTree.StoredAs C idx.keyType value k ∧
        HasKey C table.schema idx raw k := fun htr => by
      obtain ⟨k, value', hvalue', hk⟩ := hkeys htr _ List.mem_cons_self
      obtain rfl := Except.ok.inj (hvalue.symm.trans hvalue')
      exact ⟨k, hk, value, hvalue, hk⟩
    have henters : tr t i idx.keyType → ∃ k, BPlusTree.Enters C idx.keyType value k := fun htr =>
      (hkey htr).imp fun k hk => hk.1.enters
    have hinsert : wpIf Room
        (onPages (BPlusTree.insert (.ofColumn C idx.keyType) false idx.rootPageId value rid)) _ _ db :=
      hs.insertKey ht hi ⟨raw, hmem.1⟩ hlacks.1 henters
    have hinsert' : wpIf (fun s : Pages => s.length < invalidPageId)
        (BPlusTree.insert (.ofColumn C idx.keyType) false idx.rootPageId value rid) _ _ db.pages :=
      wp_onPages.mp hinsert
    refine hinsert'.bind (fun root => sheds_of_extends (extends_backfill _ _ _ _ _) _) ?_ ?_
    · rintro root s₁ - ⟨-, -, v₁, hs₁, hcontent, hlast, hown, hothers⟩
      obtain ⟨ht₁, hi₁⟩ :
          (db.catalog.withRoot table i idx root).tables.get? t = some _ ∧
            (table.indexes.set i { idx with rootPageId := root }).get? i = some _ :=
        Catalog.get?_withRoot_self hname root
      have htuples : v₁.tuples = v.tuples := by
        rw [hcontent, Content.tuples_addKey]
      have hsame : SameBut v v₁ t i := by
        refine ⟨htuples, hlast, fun t' i' hne => ?_⟩
        rw [hcontent]
        exact Content.entries_addKey_ne C _ _ _ _ _ _ hne
      have hentries : ∀ {k}, BPlusTree.StoredAs C idx.keyType value k →
          v₁.entries t i = (k, rid) :: v.entries t i := fun hk => by
        rw [hcontent]
        exact Content.entries_addKey_self hk.encode_eq _ _ _ _
      have hlacks₁ : ∀ x ∈ tuples, v₁.Lacks s₁ t i x.1 := fun x hx =>
        hothers t i x.1 (fun h => hnew (List.mem_map.mpr ⟨x, hx, h.2⟩)) (hlacks.2 x hx)
      refine (ih hs₁ ht₁ hi₁ hn hlt (hown _ _ hr₀) (htuples ▸ hmem.2) hnodup hlacks₁
        (fun htr x hx => hkeys htr x (List.mem_cons_of_mem _ hx)) fun htr es hes k' => ?_).mono ?_ ?_
      · obtain ⟨k, hk, hhas⟩ := hkey htr
        refine le_of_eq_of_le ?_ (hfew htr ((k, rid) :: es) (.cons ⟨rfl, hhas⟩ hes) k')
        rw [hentries hk]
        exact BPlusTree.length_ridsUnder_perm List.perm_middle k'
      · rintro root' s₂ - ⟨v₂, hs₂, hsame₂, hfilled⟩
        refine ⟨v₂, ?_, hsame.trans hsame₂, fun htr => ?_⟩
        · rw [Catalog.withRoot_withRoot] at hs₂
          exact hs₂
        · obtain ⟨k, hk, hhas⟩ := hkey htr
          obtain ⟨es, hes, hperm⟩ := hfilled htr
          refine ⟨(k, rid) :: es, .cons ⟨rfl, hhas⟩ hes, hperm.trans ?_⟩
          rw [hentries hk]
          exact List.perm_middle
      · rintro e s₂ - ⟨htr, v₂, hs₂, hsame₂⟩
        rw [Catalog.withRoot_withRoot] at hs₂
        exact ⟨htr, v₂, hs₂, hsame.trans hsame₂⟩
    · rintro e s₁ - ⟨-, -, v₁, hs₁, hcontent, hlast, hown, hfull⟩
      have htr : ¬tr t i idx.keyType := by
        intro htr
        obtain ⟨k, hk, hhas⟩ := hkey htr
        obtain ⟨es, hes⟩ := exists_filled fun x hx => hkeys htr x (List.mem_cons_of_mem _ hx)
        have hle := hfew htr ((k, rid) :: es) (.cons ⟨rfl, hhas⟩ hes) k
        obtain ⟨es', hperm, htree⟩ := hs.ordered ht hi htr
        refine hfull htr _ (htree.search_eq hk) ?_
        have hperm' : ((k, rid) :: (es ++ v.entries t i)).Perm ((k, rid) :: (es ++ es')) :=
          ((hperm.symm.append_left es).cons _)
        rw [List.cons_append, BPlusTree.length_ridsUnder_perm hperm' k] at hle
        simp only [BPlusTree.ridsUnder, List.filter_cons_of_pos, decide_true, List.map_cons,
          List.length_cons, List.filter_append, List.map_append, List.length_append] at hle ⊢
        omega
      refine ⟨htr, v₁, hs₁.setRoot ht hi (hown _ _ hr₀) htr, ?_, hlast, ?_⟩
      · rw [hcontent]
      · rintro t' i' -
        rw [hcontent]

end Backfill

section
variable {t i column : String} {unique : Bool} {idx : IndexMeta}

/-- An index has been made: it is in the catalog, and nothing else has changed but its entries. -/
structure IndexMade (C : Conversions) (tr : Tracked) (t i column : String) (unique : Bool)
    (db : Database) (v : View) (table : TableMeta) (idx : IndexMeta) (db' : Database) (v' : View) :
    Prop where
  found : db.catalog.tables.get? t = some table
  name : table.name = t
  new : table.indexes.get? i = none
  column_eq : idx.column = column
  unique_eq : idx.unique = unique
  keyed : Keyed table idx
  session : db'.session = db.session
  catalog : db'.catalog = db.catalog.setTable { table with indexes := table.indexes.set i idx }
  sound : Sound C tr db' v'
  same : SameBut v v' t i

theorem IndexMade.get? {v' : View} (h : IndexMade C tr t i column unique db v table idx db' v') :
    db'.catalog.tables.get? t = some { table with indexes := table.indexes.set i idx } ∧
      (table.indexes.set i idx).get? i = some idx := by
  obtain rfl := h.name
  rw [h.catalog]
  exact ⟨Dict.get?_set_self _ _ _, Dict.get?_set_self _ _ _⟩

/-- The tree of the index has grown. -/
theorem IndexMade.reroot {v₁ v₂ : View} {root : Nat} {s₂ : Pages}
    (h : IndexMade C tr t i column unique db v table idx db' v₁)
    (hs : Sound C tr { db' with
      pages := s₂
      catalog := db'.catalog.withRoot { table with indexes := table.indexes.set i idx } i idx root } v₂)
    (hsame : SameBut v₁ v₂ t i) :
    IndexMade C tr t i column unique db v table { idx with rootPageId := root }
      { db' with
        pages := s₂
        catalog := db'.catalog.withRoot { table with indexes := table.indexes.set i idx } i idx root }
      v₂ where
  found := h.found
  name := h.name
  new := h.new
  column_eq := h.column_eq
  unique_eq := h.unique_eq
  keyed := ⟨h.keyed.column, h.keyed.indexable⟩
  session := h.session
  catalog := by
    rw [h.catalog]
    simp only [Catalog.withRoot, Catalog.setTable, Dict.set_set]
  sound := hs
  same := h.same.trans hsame

theorem sheds_lift (x : Except PyError α) : Sheds Room (lift x) := (reads_lift x).sheds

theorem sheds_createIndex (t i column : String) (unique : Bool) :
    Sheds Room (createIndex C t i column unique) := by
  refine .bind (reads_getTable t).sheds fun table => ?_
  split
  · exact (Reads.throw _).sheds
  · refine .bind (sheds_lift _) fun col => ?_
    split
    · exact (Reads.throw _).sheds
    · refine .bind (sheds_onPages BPlusTree.extends_create) fun root => .bind ?_ fun _ =>
        (Reads.pure _).sheds
      exact fun db => id

theorem sheds_executeCreateIndex (i t column : String) (unique : Bool) :
    Sheds Room (executeCreateIndex C i t column unique) :=
  .bind (reads_getTable t).sheds fun _ => .bind (sheds_createIndex _ _ _ _) fun _ =>
    .bind (reads_onPages (HeapFile.reads_openAt _)).sheds fun _ => .bind (sheds_lift _) fun _ =>
    .bind (reads_onPages (HeapFile.reads_scan _)).sheds fun _ =>
    .bind (sheds_onPages (extends_backfill _ _ _ _ _)) fun _ =>
    .bind (sheds_updateIndexRoot _ _ _) fun _ => (Reads.pure _).sheds

/-- The index with an empty tree, before it takes the tuples. -/
theorem wp_createIndex (hs : Sound C tr db v) :
    wp (createIndex C t i column unique)
      (fun idx db' => ∃ table, IndexMade C tr t i column unique db v table idx db'
        (v.newIndex t i db.pages.length) ∧
        ∀ rid, (v.newIndex t i db.pages.length).Lacks db'.pages t i rid)
      (fun _ db' => db' = db) db := by
  unfold createIndex
  refine wp_bind.mpr (wp_getTable.mpr ⟨fun table ht => ?_, fun e herr => rfl⟩)
  obtain ⟨rfl, hself, -⟩ := hs.current ht
  split
  · rfl
  · rename_i hnew
    refine wp_bind.mpr (wp_lift.mpr ⟨fun col hcol => ?_, fun e herr => rfl⟩)
    split
    · rfl
    · rename_i hty
      have hindexable : col.type.Indexable := by
        rw [ColumnType.Indexable]
        tauto
      obtain ⟨n, -, -, hname⟩ := Schema.column_eq_ok hcol
      have hcreate : onPages (BPlusTree.create (.ofColumn C col.type)) db = _ :=
        onPages_eq_ok.mpr ⟨_, createTree_eq hindexable _, rfl⟩
      rw [wp_bind, wp_of_ok hcreate]
      have hkeyed : Keyed table ⟨i, column, db.pages.length, unique, col.type⟩ :=
        ⟨by rw [hcol, ← hname], hindexable⟩
      obtain ⟨hl, ho⟩ := hs.layout.createIndex C tr i hself rfl hkeyed
      refine ⟨table, ⟨hself, rfl, ?_, rfl, rfl, hkeyed, rfl, rfl, ⟨hl, ho hs.ordered⟩, rfl, rfl, ?_⟩, fun rid p hp => ?_⟩
      · simpa [Dict.contains] using hnew
      · intro t' i' hne
        exact if_neg hne
      · obtain rfl : p = db.pages.length := (congrFun (View.own_assign_self _ _ _) p).mp hp
        simp [ridsAt, Page.rids, emptyLeaf]

/-- CREATE INDEX. When it raises, the index may be there with some of the tuples, but not if it
    is tracked. -/
theorem wp_executeCreateIndex (hs : Sound C tr db v)
    (hfill : ∀ table idx, db.catalog.getTable t = .ok table → Keyed table idx → idx.column = column →
      tr t i idx.keyType → Fillable C table.schema idx (v.tuples t)) :
    wpIf Room (executeCreateIndex C i t column unique)
      (fun _ db' => ∃ table idx v', IndexMade C tr t i column unique db v table idx db' v' ∧
        (tr t i idx.keyType → ∃ es, Filled C table.schema idx (v.tuples t) es ∧
          (v'.entries t i).Perm es))
      (fun _ db' => db' = db ∨ ∃ table idx v',
        IndexMade C tr t i column unique db v table idx db' v' ∧ ¬tr t i idx.keyType) db := by
  unfold executeCreateIndex
  refine wp_bind.mpr (wp_getTable.mpr ⟨fun table ht => ?_, fun e herr _ => .inl rfl⟩)
  refine (wp_createIndex hs).run.wpIf.bind (fun _ =>
    .bind (reads_onPages (HeapFile.reads_openAt _)).sheds fun _ => .bind (sheds_lift _) fun _ =>
    .bind (reads_onPages (HeapFile.reads_scan _)).sheds fun _ =>
    .bind (sheds_onPages (extends_backfill _ _ _ _ _)) fun _ =>
    .bind (sheds_updateIndexRoot _ _ _) fun _ => (Reads.pure _).sheds) ?_ fun _ _ _ h => .inl h.2
  rintro idx db₁ - ⟨-, table', hmade, hlacks⟩
  obtain rfl : table = table' := by
    rw [getTable_eq_ok] at ht
    exact Option.some.inj (ht.symm.trans hmade.found)
  have hname : table.name = t := hs.layout.name_eq hmade.found
  obtain ⟨ht₁, hi₁⟩ := hmade.get?
  have hheap := hmade.sound.layout.heap ht₁
  have hopen : onPages (HeapFile.openAt table.heapFirstPageId) db₁ = _ :=
    onPages_eq_ok.mpr ⟨_, hheap.openAt, rfl⟩
  refine wp_bind.mpr ((wp_of_ok hopen).mpr ?_)
  obtain ⟨n, hn, hcol, -⟩ := Schema.column_eq_ok hmade.keyed.column
  have hlt : n < table.schema.columns.length := (List.getElem?_eq_some_iff.mp hcol).1
  have hindex : lift (table.schema.indexOf column) db₁ = .ok n db₁ := by
    rw [← hmade.column_eq, hn]
    rfl
  refine wp_bind.mpr ((wp_of_ok hindex).mpr ?_)
  have hscan : onPages (HeapFile.scan _) db₁ = _ := 
    onPages_eq_ok.mpr ⟨_, hheap.scan ((v.newIndex t i db.pages.length).last t), rfl⟩
  refine wp_bind.mpr ((wp_of_ok hscan).mpr ?_)
  have hempty : (v.newIndex t i db.pages.length).entries t i = [] := by simp [View.newIndex]
  have hfillable : tr t i idx.keyType → Fillable C table.schema idx (v.tuples t) :=
    hfill table idx ht hmade.keyed hmade.column_eq
  have hbackfill : wpIf (fun s => s.length < invalidPageId)
      (backfill (.ofColumn C idx.keyType)
        ({ table with indexes := table.indexes.set i idx } : TableMeta).schema n idx.rootPageId
        (v.tuples t)) _ _ db₁.pages :=
    wp_backfill hmade.sound ht₁ hi₁ hn hlt (hmade.sound.layout.root ht₁ hi₁) (fun x hx => hx)
      hheap.nodup (fun x _ => hlacks x.1)
      (fun htr => (hfillable htr).keys) fun htr es hes k => by
        rw [hempty, List.append_nil]
        exact (hfillable htr).few es hes k
  refine wp_bind.mpr (wp_onPages.mpr (wp.mono hbackfill (fun root s₂ h => ?_) fun e s₂ h hroom => ?_))
  · have hupdate : updateIndexRoot t i root { db₁ with pages := s₂ } = .ok () { db₁ with
        pages := s₂, catalog := db₁.catalog.withRoot { table with indexes := table.indexes.set i idx } i
          idx root } := by
      simp only [updateIndexRoot, Catalog.updateIndexRoot_eq ht₁ hi₁]
    refine wp_bind.mpr ((wp_of_ok hupdate).mpr fun hroom => ?_)
    obtain ⟨v₂, hs₂, hsame, hfilled⟩ := h hroom
    refine ⟨table, { idx with rootPageId := root }, v₂, hmade.reroot hs₂ hsame, fun htr => ?_⟩
    obtain ⟨es, hes, hperm⟩ := hfilled htr
    rw [hempty, List.append_nil] at hperm
    exact ⟨es, hes, hperm⟩
  · obtain ⟨htr, v₂, hs₂, hsame⟩ := h hroom
    have hcatalog := Catalog.withRoot_self ht₁ (hmade.sound.layout.name_eq ht₁) hi₁
    have hmade' := hmade.reroot hs₂ hsame
    rw [hcatalog] at hmade'
    exact .inr ⟨table, _, v₂, hmade', htr⟩

end

end Database
end Minirel
