-- SUMMARY: What writing one row does to the content of a database.
import Minirel.Database
import Minirel.Layout

/-!
# Writing a row

What the writes of one row do to the tuples and the index entries, whether they return or
raise: a version goes to the end of the heap, another one gets a stamp, and the indexes
take the key of the new version one after the other, or some of the first ones do.

Nothing is promised about a data file that has grown to the page id that ends a chain.
-/

namespace Minirel
namespace Database

variable {α : Type} {C : Conversions} {db db' : Database} {Q : α → Database → Prop}
  {E : PyError → Database → Prop}

/-! ## Rules -/

/-- No page has the id that ends a chain. -/
def Room (db : Database) : Prop := db.pages.length < invalidPageId

theorem wp_lift {x : Except PyError α} :
    wp (lift x) Q E db ↔ (∀ a, x = .ok a → Q a db) ∧ ∀ e, x = .error e → E e db := by
  cases x <;> simp [wp, lift]

theorem wp_onPages {m : PagesM α} :
    wp (onPages m) Q E db ↔ wp m (fun a pages => Q a { db with pages })
      (fun e pages => E e { db with pages }) db.pages := by
  unfold wp onPages
  cases m db.pages <;> rfl

theorem onPages_eq_ok {m : PagesM α} {a : α} :
    onPages m db = .ok a db' ↔ ∃ s, m db.pages = .ok a s ∧ db' = { db with pages := s } := by
  unfold onPages
  cases m db.pages with
  | ok b s =>
    simp only [EStateM.Result.ok.injEq]
    constructor
    · rintro ⟨rfl, rfl⟩
      exact ⟨s, ⟨rfl, rfl⟩, rfl⟩
    · rintro ⟨s', ⟨rfl, rfl⟩, rfl⟩
      exact ⟨rfl, rfl⟩
  | error e s => simp

/-- What a computation that only reads has returned. -/
theorem onPages_reads {m : PagesM α} {a : α} (h : Reads m) (hm : onPages m db = .ok a db') :
    m db.pages = .ok a db.pages := by
  obtain ⟨s, hrun, -⟩ := onPages_eq_ok.mp hm
  rwa [h.ok hrun] at hrun

theorem reads_lift (x : Except PyError α) : Reads (lift x) := fun db => by
  cases x <;> rfl

theorem reads_onPages {m : PagesM α} (h : Reads m) : Reads (onPages m) := fun db =>
  wp_onPages.mpr ((h db.pages).mono (fun _ _ heq => by rw [heq]) fun _ _ heq => by rw [heq])

theorem reads_getTable (name : String) : Reads (getTable name) := fun db => reads_lift _ db

theorem reads_getIndex (t i : String) : Reads (getIndex t i) := fun db => reads_lift _ db

theorem sheds_of_extends {m : PagesM α} (h : Extends m) (n : Nat) :
    Sheds (fun pages => pages.length < n) m := fun s => by
  refine wp_of (fun a s' hm hlt => ?_) fun e s' hm hlt => ?_
  · have hle := h s
    rw [PageM.after_ok hm] at hle
    exact hle.trans_lt hlt
  · have hle := h s
    rw [PageM.after_error hm] at hle
    exact hle.trans_lt hlt

theorem sheds_onPages {m : PagesM α} (h : Extends m) : Sheds Room (onPages m) := fun db =>
  wp_onPages.mpr (sheds_of_extends h invalidPageId db.pages)

/-! ## Within a statement -/

/-- What a statement on rows leaves alone: the tables and indexes but for their roots, the
    handles, and everything in the transaction manager but its log. -/
structure Within (db db' : Database) : Prop where
  shape : db'.catalog.shape = db.catalog.shape
  txns : db'.session.txns = db.session.txns
  nextTxnId : db'.mgr.nextTxnId = db.mgr.nextTxnId
  activeXids : db'.mgr.activeXids = db.mgr.activeXids
  abortedXids : db'.mgr.abortedXids = db.mgr.abortedXids

theorem Within.refl (db : Database) : Within db db := ⟨rfl, rfl, rfl, rfl, rfl⟩

theorem Within.trans {db₁ db₂ db₃ : Database} (h : Within db₁ db₂) (h' : Within db₂ db₃) :
    Within db₁ db₃ where
  shape := h'.shape.trans h.shape
  txns := h'.txns.trans h.txns
  nextTxnId := h'.nextTxnId.trans h.nextTxnId
  activeXids := h'.activeXids.trans h.activeXids
  abortedXids := h'.abortedXids.trans h.abortedXids

theorem Within.pages (db : Database) (pages : Pages) : Within db { db with pages } :=
  ⟨rfl, rfl, rfl, rfl, rfl⟩

theorem Within.sees (h : Within db db') (snapshot : Snapshot) (raw : Tuple) :
    sees db'.mgr snapshot raw = sees db.mgr snapshot raw := by
  simp only [Minirel.sees, TransactionManager.isVisible, h.abortedXids]

theorem logOperation_eq (txn : Transaction) (op : LogOp) (db : Database)
    (h : txn.txnId < 2 ^ 32) :
    ∃ db', logOperation txn op db = .ok () db' ∧ db'.pages = db.pages ∧
      db'.catalog = db.catalog ∧ Within db db' := by
  obtain ⟨wal, hwal⟩ : ∃ wal, db.mgr.wal.logOperation txn.txnId op = .ok wal :=
    ⟨_, WriteAheadLog.append_eq _ h _ _⟩
  refine ⟨{ db with session := { db.session with mgr := { db.mgr with wal } } }, ?_, rfl, rfl,
    ⟨rfl, rfl, rfl, rfl, rfl⟩⟩
  simp only [logOperation, hwal]

theorem sheds_logOperation (txn : Transaction) (op : LogOp) : Sheds Room (logOperation txn op) := by
  intro db
  unfold wp logOperation
  cases db.mgr.wal.logOperation txn.txnId op <;> exact id

theorem sheds_updateIndexRoot (t i : String) (root : Nat) : Sheds Room (updateIndexRoot t i root) := by
  intro db
  unfold wp updateIndexRoot
  cases db.catalog.updateIndexRoot t i root <;> exact id

/-- What every statement keeps. -/
structure Sound (C : Conversions) (tr : Tracked) (db : Database) (v : View) : Prop where
  layout : Layout db.catalog db.pages v
  ordered : Ordered C tr db.catalog db.pages v

/-- The metadata a statement has read are still those of the table, but for the roots. -/
def Current (db : Database) (table : TableMeta) : Prop :=
  ∃ table', db.catalog.tables.get? table.name = some table' ∧ table'.shape = table.shape

theorem Within.current {table : TableMeta} (h : Within db db') (hc : Current db table) :
    Current db' table := by
  obtain ⟨table₁, ht₁, heq₁⟩ := hc
  obtain ⟨table₂, ht₂, heq₂⟩ := Catalog.get?_of_shape h.shape.symm ht₁
  exact ⟨table₂, ht₂, heq₂.trans heq₁⟩

section Rows
variable {tr : Tracked} {v : View} {table : TableMeta} {txn : Transaction} {values : List Value}
  {valueMap : Dict Value} {rid : RID} {excludeRid : Option RID}

/-- The log and the manager do not matter. -/
theorem Sound.congr (h : Sound C tr db v) (hpages : db'.pages = db.pages)
    (hcatalog : db'.catalog = db.catalog) : Sound C tr db' v := by
  obtain ⟨hl, ho⟩ := h
  rw [← hpages, ← hcatalog] at hl ho
  exact ⟨hl, ho⟩

theorem Sound.log (h : Sound C tr db v) (op : LogOp) (hid : txn.txnId < 2 ^ 32) :
    ∃ db', logOperation txn op db = .ok () db' ∧ Sound C tr db' v ∧ Within db db' := by
  obtain ⟨db', hrun, hpages, hcatalog, hwithin⟩ := logOperation_eq txn op db hid
  exact ⟨db', hrun, h.congr hpages hcatalog, hwithin⟩

/-! ## Versions -/

theorem sheds_addVersion (table : TableMeta) (txn : Transaction) (values : List Value)
    (heap : HeapFile) : Sheds Room (addVersion C table txn values heap) :=
  .bind (reads_lift _).sheds fun _ => .bind (reads_lift _).sheds fun _ =>
    .bind (sheds_onPages (HeapFile.extends_insert _ _ _)) fun _ =>
      .bind (sheds_logOperation _ _) fun _ => (Reads.pure _).sheds

/-- A version that a transaction has just made of these values. -/
structure IsVersion (C : Conversions) (table : TableMeta) (txn : Transaction) (values : List Value)
    (tup : Tuple) : Prop where
  xmin : tup.xmin = txn.txnId
  xmax : tup.xmax = infinityTxn
  encoded : encodeRow C values table.schema = .ok tup.payload

/-- Values that cannot be stored: they do not encode, or are too large for a page. -/
def VersionRefused (C : Conversions) (table : TableMeta) (values : List Value) : Prop :=
  ∀ tup : Tuple, encodeRow C values table.schema = .ok tup.payload →
    pageSize < HeapFile.headerSize + HeapFile.slotSize + tup.size

/-- A version goes to the end of the heap, or raises before anything is written. -/
theorem wp_addVersion (hs : Sound C tr db v) (hc : Current db table) (hid : txn.txnId < 2 ^ 32) :
    wpIf Room (addVersion C table txn values ⟨table.heapFirstPageId, v.last table.name⟩)
      (fun r db' => ∃ v' tup, Sound C tr db' v' ∧ Within db db' ∧
        IsVersion C table txn values tup ∧ ¬v.HasRid table.name r.1 ∧
        v'.toContent = v.add table.name (r.1, tup) ∧
        r.2 = ⟨table.heapFirstPageId, v'.last table.name⟩ ∧
        ∀ i idx, table.indexes.get? i = some idx → v'.Lacks db'.pages table.name i r.1)
      (fun _ db' => db' = db ∧ VersionRefused C table values) db := by
  refine (sheds_addVersion table txn values _).start fun hroom => wp.wpIf ?_
  obtain ⟨table', ht, heq⟩ := hc
  obtain ⟨-, hschema, hfirst⟩ := TableMeta.of_shape heq
  rw [addVersion, wp_bind, wp_lift]
  refine ⟨fun cells hcells => ?_, fun e herr => ⟨rfl, fun tup hok => ?_⟩⟩
  swap
  · rw [herr] at hok
    cases hok
  rw [wp_bind, wp_lift]
  refine ⟨fun tup htup => ?_, fun e herr => ?_⟩
  swap
  · rw [packTuple_eq cells hid (by decide)] at herr
    cases herr
  obtain ⟨hxmin, hxmax, hpayload⟩ := packTuple_ok htup
  rw [wp_bind, wp_onPages]
  by_cases hsize : HeapFile.headerSize + HeapFile.slotSize + Tuple.size tup ≤ pageSize
  · have hconf : Conforms table'.schema tup :=
      ⟨by rw [hschema, hpayload]; exact encodeRow_types hcells, hsize⟩
    obtain ⟨rid, last, s', hrun, hl, hlacks, ho⟩ := hs.layout.insert (C := C) ht hconf hroom
    rw [hfirst] at hrun
    rw [wp_of_ok hrun, wp_bind]
    have hs' : Sound C tr { db with pages := s' }
        ((v.claim (.heap table.name) db.pages s').addTuple table.name last (rid, tup)) :=
      ⟨hl, ho hs.ordered⟩
    have hfresh : ¬v.HasRid table.name rid := fun ⟨old, hold⟩ => by
      have hnodup := (hl.heap ht).nodup
      simp only [View.addTuple, View.claim, Content.add, Function.update_self, List.map_append,
        List.map_cons, List.map_nil, List.nodup_append] at hnodup
      exact hnodup.2.2 rid (List.mem_map.mpr ⟨_, hold, rfl⟩) rid (by simp) rfl
    obtain ⟨db', hlog, hpages, hcatalog, hwithin⟩ :=
      logOperation_eq txn (.heapInsert table.name tup rid) { db with pages := s' } hid
    rw [wp_of_ok hlog]
    refine ⟨_, tup, hs'.congr hpages hcatalog, (Within.pages db s').trans hwithin,
      ⟨hxmin, hxmax, hpayload ▸ hcells⟩, hfresh, rfl, by simp [View.addTuple], fun i idx hi => ?_⟩
    rw [hpages]
    obtain ⟨idx', hi', -⟩ := TableMeta.get?_of_shape heq.symm hi
    exact hlacks _ _ _ ((hs.layout.region ht hi').absent hfresh)
  · obtain ⟨e, herr⟩ := HeapFile.insert_oversize (s := db.pages) _ hsize
    rw [wp_of_error herr]
    refine ⟨rfl, fun tup' hcells' => ?_⟩
    have hsame : tup'.payload = tup.payload :=
      hpayload ▸ (Except.ok.inj (hcells.symm.trans hcells')).symm
    have : tup'.size = Tuple.size tup := by rw [Tuple.size, Tuple.size, hsame]
    rw [this]
    exact not_le.mp hsize

theorem sheds_stampVersion (table : TableMeta) (txn : Transaction) (rid : RID) (raw : Tuple) :
    Sheds Room (stampVersion table txn rid raw) :=
  .bind (reads_lift _).sheds fun _ =>
    .bind (sheds_onPages (HeapFile.extends_updateInPlace _ _ _)) fun _ => sheds_logOperation _ _

/-- The xmax of a version is overwritten. -/
theorem wp_stampVersion {raw : Tuple} (hs : Sound C tr db v) (hc : Current db table)
    (hid : txn.txnId < 2 ^ 32) (hmem : (rid, raw) ∈ v.tuples table.name) :
    wp (stampVersion table txn rid raw)
      (fun _ db' => ∃ v' new, Sound C tr db' v' ∧ Within db db' ∧
        withXmax raw txn.txnId = .ok new ∧ v'.toContent = v.set table.name rid new ∧
        v'.last = v.last)
      (fun _ _ => False) db := by
  obtain ⟨table', ht, -⟩ := hc
  rw [stampVersion, wp_bind, wp_lift]
  refine ⟨fun new hnew => ?_, fun e herr => ?_⟩
  swap
  · rw [withXmax_eq raw hid] at herr
    cases herr
  obtain ⟨-, -, hpayload⟩ := withXmax_ok hnew
  have hsize : Tuple.size raw = Tuple.size new := by rw [Tuple.size, Tuple.size, hpayload]
  have hconf := hs.layout.conforms ht (rid, raw) hmem
  have hconf' : Conforms table'.schema new :=
    ⟨by rw [hpayload]; exact hconf.types, by rw [← hsize]; exact hconf.size_le⟩
  obtain ⟨s', hrun, -, hl, ho⟩ := hs.layout.updateInPlace (C := C) ht hmem hconf' hsize
  rw [wp_bind, wp_onPages, wp_of_ok hrun]
  have hs' : Sound C tr { db with pages := s' } (v.setTuple table.name rid new) :=
    ⟨hl, ho hs.ordered⟩
  obtain ⟨db', hlog, hsound, hwithin⟩ := hs'.log (.heapSetXmax table.name rid txn.txnId) hid
  rw [wp_of_ok hlog]
  exact ⟨_, new, hsound, (Within.pages db s').trans hwithin, hnew, rfl, rfl⟩

/-! ## Index entries -/

theorem lookup_eq_ok {valueMap : Dict Value} {name : String} {value : Value} :
    lookup valueMap name = .ok value ↔ valueMap.get? name = some value := by
  unfold lookup
  cases valueMap.get? name <;> simp

/-- No entry under the key leads to a version that the snapshot sees. -/
def Unseen (mgr : TransactionManager LogOp) (snapshot : Snapshot) (c : Content) (t i : String)
    (k : RawKey) (excludeRid : Option RID) : Prop :=
  ∀ rid tup, (k, rid) ∈ c.entries t i → some rid ≠ excludeRid → (rid, tup) ∈ c.tuples t →
    sees mgr snapshot tup = false

theorem wp_checkRids (idx : IndexMeta) (key : Value) (txn : Transaction) (excludeRid : Option RID)
    (rids : List RID) (db : Database) :
    wp (checkRids C idx key txn excludeRid rids)
      (fun _ db' => db' = db ∧ ∀ rid ∈ rids, some rid ≠ excludeRid →
        ∀ raw, HeapFile.get rid db.pages = .ok (some raw) db.pages →
          sees db.mgr txn.snapshot raw = false)
      (fun _ db' => db' = db) db := by
  induction rids with
  | nil => exact ⟨rfl, by simp⟩
  | cons rid rids ih =>
    rw [checkRids]
    split
    · rename_i hex
      refine ih.mono (fun _ db' h => ⟨h.1, ?_⟩) fun _ _ h => h
      rw [List.forall_mem_cons]
      exact ⟨fun hne => absurd hex hne, h.2⟩
    · rw [wp_bind]
      refine (reads_onPages (HeapFile.reads_get rid)).wp (fun found hfound => ?_) fun _ _ => rfl
      have hget := onPages_reads (HeapFile.reads_get rid) hfound
      cases found with
      | none =>
        refine ih.mono (fun _ db' h => ⟨h.1, ?_⟩) fun _ _ h => h
        rw [List.forall_mem_cons]
        refine ⟨fun _ raw hraw => ?_, h.2⟩
        rw [hget] at hraw
        cases hraw
      | some raw =>
        dsimp only
        rw [wp_bind, wp_get]
        split
        · rfl
        · rename_i hsees
          refine ih.mono (fun _ db' h => ⟨h.1, ?_⟩) fun _ _ h => h
          rw [List.forall_mem_cons]
          refine ⟨fun _ raw' hraw => ?_, h.2⟩
          rw [hget] at hraw
          cases hraw
          simpa using hsees

/-- The check of a unique index reads only. One that passes has found no version that the
    snapshot sees under the key. -/
theorem wp_checkUniqueConstraint {table' : TableMeta} {i : String} {idx : IndexMeta} (key : Value)
    {t : String} (hs : Sound C tr db v) (ht : db.catalog.tables.get? t = some table')
    (hi : table'.indexes.get? i = some idx) :
    wp (checkUniqueConstraint C idx key txn excludeRid)
      (fun _ db' => db' = db ∧ (tr t i idx.keyType → idx.unique →
        ∀ k, BPlusTree.Enters C idx.keyType key k →
          Unseen db.mgr txn.snapshot v.toContent t i k excludeRid))
      (fun _ db' => db' = db) db := by
  unfold checkUniqueConstraint
  split
  · rename_i hunique
    exact ⟨rfl, fun _ h => by simp [h] at hunique⟩
  · rw [wp_bind]
    refine (reads_onPages (BPlusTree.Reads.search _ _)).wp (fun rids hrids => ?_) fun _ _ => rfl
    have hsearch := onPages_reads (BPlusTree.Reads.search _ _) hrids
    refine (wp_checkRids idx key txn excludeRid rids db).mono (fun _ db' h => ⟨h.1, ?_⟩)
      fun _ _ h => h
    intro htr _ k hk rid tup hentry hne hmem
    obtain ⟨es, hperm, htree⟩ := hs.ordered ht hi htr
    obtain rfl := htree.search_enters hk hsearch
    exact h.2 rid (BPlusTree.mem_ridsUnder.mpr (hperm.symm.subset hentry)) hne tup
      ((hs.layout.heap ht).get hmem)

/-- An insertion into the tree of an index, with the root that goes into the catalog next. A
    tracked index refuses no key that it holds less often than a leaf holds entries. -/
theorem Sound.insertKey {table' : TableMeta} {t i : String} {idx : IndexMeta} {key : Value}
    (hs : Sound C tr db v) (ht : db.catalog.tables.get? t = some table')
    (hi : table'.indexes.get? i = some idx) (hrid : v.HasRid t rid) (hlacks : v.Lacks db.pages t i rid)
    (hkey : tr t i idx.keyType → ∃ k, BPlusTree.Enters C idx.keyType key k) :
    wpIf Room (onPages (BPlusTree.insert (.ofColumn C idx.keyType) false idx.rootPageId key rid))
      (fun root db' => Within db db' ∧ db'.catalog = db.catalog ∧ ∃ v',
        Sound C tr { db' with catalog := db.catalog.withRoot table' i idx root } v' ∧
        v'.toContent = v.toContent.addKey C t i idx.keyType key rid ∧ v'.last = v.last ∧
        (∀ o p, v.own o p → v'.own o p) ∧
        ∀ t' i' rid', ¬((t' = t ∧ i' = i) ∧ rid' = rid) → v.Lacks db.pages t' i' rid' →
          v'.Lacks db'.pages t' i' rid')
      (fun _ db' => Within db db' ∧ db'.catalog = db.catalog ∧ ∃ v', Sound C tr db' v' ∧ v'.toContent = v.toContent ∧
        v'.last = v.last ∧ (∀ o p, v.own o p → v'.own o p) ∧ (tr t i idx.keyType → ∀ rids,
          BPlusTree.search (.ofColumn C idx.keyType) idx.rootPageId key db.pages = .ok rids db.pages →
          ¬rids.length < BPlusTree.maxLeafKeys (.ofColumn C idx.keyType))) db := by
  have hlayout : wp (BPlusTree.insert (.ofColumn C idx.keyType) false idx.rootPageId key rid) _ _
      db.pages := hs.layout.insertKey ht hi hrid hlacks
  have hordered : wpIf (fun s' => s'.length < invalidPageId)
      (BPlusTree.insert (.ofColumn C idx.keyType) false idx.rootPageId key rid) _ _ db.pages :=
    hs.ordered.insertKey hs.layout ht hi hrid hkey
  refine wp_onPages.mpr (wp_of (fun root s' hrun hroom => ?_) fun e s' hrun hroom => ?_)
  · obtain ⟨hl, hroot, hothers⟩ := hlayout.ok hrun
    exact ⟨Within.pages db s', rfl,
      (v.claim (.index t i) db.pages s').addKey C t i idx.keyType key rid,
      ⟨(hl.setRoot ht hi hroot).addKey, hordered.ok hrun hroom⟩, rfl, rfl,
      fun o p hp => hs.layout.own_claim hp, hothers⟩
  · refine ⟨Within.pages db s', rfl, v.claim (.index t i) db.pages s',
      ⟨hlayout.error hrun, hordered.error hrun hroom⟩, rfl, rfl, fun o p hp => hs.layout.own_claim hp,
      fun htr rids hsearch hfew => ?_⟩
    obtain ⟨k, henters⟩ := hkey htr
    obtain ⟨es, hperm, htree⟩ := hs.ordered ht hi htr
    obtain ⟨tup, hmem⟩ := hrid
    have hridlt : rid.pageId < db.pages.length ∧ rid.slotId < 2 ^ 16 :=
      (hs.layout.heap ht).rid_lt hmem
    have hle : _ ≤ ((BPlusTree.insert (.ofColumn C idx.keyType) false idx.rootPageId key rid).after
        db.pages).length := BPlusTree.extends_insert _ _ _ _ db.pages
    rw [PageM.after_error hrun] at hle
    have hroom' : s'.length < 2 ^ 32 - 1 := hroom
    have hfits : BPlusTree.ridFits rid = true := by
      simp only [BPlusTree.ridFits, decide_eq_true_eq]
      omega
    obtain ⟨root', s'', hrun'⟩ := htree.insert_of_search henters hfits
      (by rw [PageM.after_error hrun]; omega) hsearch hfew
    rw [hrun'] at hrun
    cases hrun

theorem sheds_checkRids (idx : IndexMeta) (key : Value) (txn : Transaction)
    (excludeRid : Option RID) (rids : List RID) :
    Sheds Room (checkRids C idx key txn excludeRid rids) := fun db =>
  (wp_checkRids idx key txn excludeRid rids db).mono (fun _ _ h hroom => h.1 ▸ hroom)
    fun _ _ h hroom => h ▸ hroom

theorem sheds_checkUniqueConstraint (idx : IndexMeta) (key : Value) (txn : Transaction)
    (excludeRid : Option RID) : Sheds Room (checkUniqueConstraint C idx key txn excludeRid) := by
  unfold checkUniqueConstraint
  split
  · exact (Reads.pure _).sheds
  · exact .bind (reads_onPages (BPlusTree.Reads.search _ _)).sheds fun _ => sheds_checkRids _ _ _ _ _

theorem sheds_insertIntoIndex (t : String) (txn : Transaction) (valueMap : Dict Value) (rid : RID)
    (excludeRid : Option RID) (i : String) :
    Sheds Room (insertIntoIndex C t txn valueMap rid excludeRid i) :=
  .bind (reads_getIndex _ _).sheds fun _ => .bind (reads_lift _).sheds fun _ =>
    .bind (sheds_checkUniqueConstraint _ _ _ _) fun _ =>
      .bind (sheds_onPages (BPlusTree.extends_insert _ _ _ _)) fun _ =>
        .bind (sheds_updateIndexRoot _ _ _) fun _ => sheds_logOperation _ _

/-- The index under a name, as the loop over the indexes looks it up. -/
theorem Current.index {i : String} {idx : IndexMeta} (hc : Current db table)
    (hi : table.indexes.get? i = some idx) :
    ∃ table' idx', db.catalog.tables.get? table.name = some table' ∧
      table'.indexes.get? i = some idx' ∧ idx'.shape = idx.shape ∧
      db.catalog.getIndex table.name i = .ok idx' := by
  obtain ⟨table', ht, heq⟩ := hc
  obtain ⟨idx', hi', hidx⟩ := TableMeta.get?_of_shape heq.symm hi
  exact ⟨table', idx', ht, hi', hidx, by simp [Catalog.getIndex, ht, hi']⟩

/-- The index lets a key in: no other version under it is seen if the index is unique, and a
    tracked index holds it less often than a leaf holds entries. -/
structure Admits (C : Conversions) (tr : Tracked) (t i : String) (idx : IndexMeta) (key : Value)
    (rid : RID) (txn : Transaction) (excludeRid : Option RID) (db : Database) : Prop where
  unique : ∃ db', checkUniqueConstraint C idx key txn excludeRid db = .ok () db'
  tracked : tr t i idx.keyType → ∃ rids,
    BPlusTree.search (.ofColumn C idx.keyType) idx.rootPageId key db.pages = .ok rids db.pages ∧
      rids.length < BPlusTree.maxLeafKeys (.ofColumn C idx.keyType)
  untracked : ¬tr t i idx.keyType → ∃ root pages,
    BPlusTree.insert (.ofColumn C idx.keyType) false idx.rootPageId key rid db.pages = .ok root pages

/-- An index lets a row in. -/
def Admitted (C : Conversions) (tr : Tracked) (t : String) (txn : Transaction)
    (valueMap : Dict Value) (rid : RID) (excludeRid : Option RID) (i : String) (db : Database) :
    Prop :=
  ∃ idx key, db.catalog.getIndex t i = .ok idx ∧ lookup valueMap idx.column = .ok key ∧
    Admits C tr t i idx key rid txn excludeRid db

/-- One index: its key is taken and the root noted in the catalog, or the row is not entered
    into it. -/
theorem wp_insertIntoIndex {i : String} {idx : IndexMeta} (hs : Sound C tr db v)
    (hc : Current db table) (hi : table.indexes.get? i = some idx) (hrid : v.HasRid table.name rid)
    (hlacks : v.Lacks db.pages table.name i rid) (hid : txn.txnId < 2 ^ 32)
    (hgood : tr table.name i idx.keyType → ∀ key, valueMap.get? idx.column = some key →
      ∃ k, BPlusTree.Enters C idx.keyType key k) :
    wpIf Room (insertIntoIndex C table.name txn valueMap rid excludeRid i)
      (fun _ db' => ∃ v' key, Sound C tr db' v' ∧ Within db db' ∧
        valueMap.get? idx.column = some key ∧
        v'.toContent = v.toContent.addKey C table.name i idx.keyType key rid ∧ v'.last = v.last ∧
        (∀ j, j ≠ i → v.Lacks db.pages table.name j rid → v'.Lacks db'.pages table.name j rid) ∧
        (tr table.name i idx.keyType → idx.unique → ∀ k, BPlusTree.Enters C idx.keyType key k →
          Unseen db.mgr txn.snapshot v.toContent table.name i k excludeRid))
      (fun _ db' => ¬Admitted C tr table.name txn valueMap rid excludeRid i db ∧
        ∃ v', Sound C tr db' v' ∧ Within db db' ∧ v'.toContent = v.toContent ∧
          v'.last = v.last) db := by
  obtain ⟨table', idx', ht, hi', hshape, hget⟩ := hc.index hi
  obtain ⟨-, hcolumn, hunique, htype⟩ := IndexMeta.of_shape hshape
  have hstay : ∃ v', Sound C tr db v' ∧ Within db db ∧ v'.toContent = v.toContent ∧
      v'.last = v.last := ⟨v, hs, .refl db, rfl, rfl⟩
  have hfind : getIndex table.name i db = .ok idx' db := by simp [getIndex, hget, lift]
  unfold insertIntoIndex
  refine wp_bind.mpr ((wp_of_ok hfind).mpr ?_)
  refine wp_bind.mpr (wp_lift.mpr ⟨fun key hkey => ?_, fun e herr _ => ⟨?_, hstay⟩⟩)
  swap
  · rintro ⟨idx₁, key, hget₁, hkey, -⟩
    obtain rfl := Except.ok.inj (hget.symm.trans hget₁)
    rw [herr] at hkey
    cases hkey
  -- what an index that lets the row in does not do
  have hadmits : Admitted C tr table.name txn valueMap rid excludeRid i db →
      Admits C tr table.name i idx' key rid txn excludeRid db := by
    rintro ⟨idx₁, key₁, hget₁, hkey₁, h⟩
    obtain rfl := Except.ok.inj (hget.symm.trans hget₁)
    obtain rfl := Except.ok.inj (hkey.symm.trans hkey₁)
    exact h
  have hkey' : valueMap.get? idx.column = some key := by
    rw [← hcolumn]
    exact lookup_eq_ok.mp hkey
  have hgood' : tr table.name i idx'.keyType → ∃ k, BPlusTree.Enters C idx'.keyType key k := by
    rw [htype]
    exact fun htr => hgood htr key hkey'
  refine wpIf.bind (wp_checkUniqueConstraint key hs ht hi').run.wpIf
    (fun _ => .bind (sheds_onPages (BPlusTree.extends_insert _ _ _ _)) fun _ =>
      .bind (sheds_updateIndexRoot _ _ _) fun _ => sheds_logOperation _ _) ?_ ?_
  · rintro ⟨⟩ db₁ - ⟨-, rfl, hunseen⟩
    refine (hs.insertKey ht hi' hrid hlacks hgood').run.bind
      (fun _ => .bind (sheds_updateIndexRoot _ _ _) fun _ => sheds_logOperation _ _) ?_ ?_
    · rintro root db₂ - ⟨-, hwithin, hcat, v', hs', hcontent, hlast, -, hothers⟩
      have hupdate : updateIndexRoot table.name i root db₂ = .ok ()
          { db₂ with catalog := db₁.catalog.withRoot table' i idx' root } := by
        simp only [updateIndexRoot, hcat, Catalog.updateIndexRoot_eq ht hi']
      obtain ⟨db₃, hlog, hpages, hcatalog, hwithin₃⟩ := logOperation_eq txn
        (.btreeInsert table.name i key rid)
        { db₂ with catalog := db₁.catalog.withRoot table' i idx' root } hid
      refine wp.wpIf (wp_bind.mpr ((wp_of_ok hupdate).mpr ((wp_of_ok hlog).mpr ?_)))
      refine ⟨v', key, hs'.congr hpages hcatalog, ?_, hkey', htype ▸ hcontent, hlast,
        fun j hne hj => ?_, fun htr hu k hk => hunseen (htype ▸ htr) (hunique ▸ hu) k (htype ▸ hk)⟩
      swap
      · rw [hpages]
        exact hothers _ _ _ (fun h => hne h.1.2) hj
      have hroot : Within db₁ { db₂ with catalog := db₁.catalog.withRoot table' i idx' root } :=
        ⟨Catalog.shape_withRoot ht (hs.layout.name_eq ht) hi' root, hwithin.txns, hwithin.nextTxnId,
          hwithin.activeXids, hwithin.abortedXids⟩
      exact hroot.trans hwithin₃
    · rintro e db₂ - ⟨hrun, hwithin, -, v', hs', hcontent, hlast, -, hfull⟩
      refine ⟨fun hadm => ?_, v', hs', hwithin, hcontent, hlast⟩
      by_cases htr : tr table.name i idx'.keyType
      · obtain ⟨rids, hsearch, hfew⟩ := (hadmits hadm).tracked htr
        exact hfull htr rids hsearch hfew
      · obtain ⟨root, pages, hins⟩ := (hadmits hadm).untracked htr
        simp [onPages, hins] at hrun
  · rintro e db₁ - ⟨hrun, rfl⟩
    refine ⟨fun hadm => ?_, hstay⟩
    obtain ⟨db', hok⟩ := (hadmits hadm).unique
    rw [hok] at hrun
    cases hrun

/-- The keys that a unique index was asked for were not to be seen. -/
def KeysUnseen (C : Conversions) (tr : Tracked) (mgr : TransactionManager LogOp)
    (snapshot : Snapshot) (c : Content) (t : String) (valueMap : Dict Value)
    (excludeRid : Option RID) (indexes : List (String × IndexMeta)) : Prop :=
  ∀ x ∈ indexes, tr t x.1 x.2.keyType → x.2.unique → ∀ key k, valueMap.get? x.2.column = some key →
    BPlusTree.Enters C x.2.keyType key k → Unseen mgr snapshot c t x.1 k excludeRid

/-- Every index lets a row in, one after the other. -/
def AdmittedAll (C : Conversions) (tr : Tracked) (t : String) (txn : Transaction)
    (valueMap : Dict Value) (rid : RID) (excludeRid : Option RID) : List String → Database → Prop
  | [], _ => True
  | i :: names, db => Admitted C tr t txn valueMap rid excludeRid i db ∧
    ∀ db', insertIntoIndex C t txn valueMap rid excludeRid i db = .ok () db' →
      AdmittedAll C tr t txn valueMap rid excludeRid names db'

theorem sheds_insertIntoIndexes (t : String) (txn : Transaction) (valueMap : Dict Value) (rid : RID)
    (excludeRid : Option RID) (names : List String) :
    Sheds Room (insertIntoIndexes C t txn valueMap rid excludeRid names) := by
  induction names with
  | nil => exact (Reads.pure _).sheds
  | cons i names ih => exact .bind (sheds_insertIntoIndex _ _ _ _ _ _) fun _ => ih

/-- The indexes one after the other: all of them take the row, or some of the first ones. -/
theorem wp_insertIntoIndexes {indexes : List (String × IndexMeta)} (hs : Sound C tr db v)
    (hc : Current db table) (hindexes : ∀ x ∈ indexes, table.indexes.get? x.1 = some x.2)
    (hnodup : (indexes.map (·.1)).Nodup) (hrid : v.HasRid table.name rid)
    (hlacks : ∀ x ∈ indexes, v.Lacks db.pages table.name x.1 rid) (hid : txn.txnId < 2 ^ 32)
    (hgood : ∀ x ∈ indexes, tr table.name x.1 x.2.keyType → ∀ key,
      valueMap.get? x.2.column = some key → ∃ k, BPlusTree.Enters C x.2.keyType key k) :
    wpIf Room
      (insertIntoIndexes C table.name txn valueMap rid excludeRid (indexes.map (·.1)))
      (fun _ db' => ∃ v', Sound C tr db' v' ∧ Within db db' ∧
        v'.toContent = v.toContent.addKeys C table.name valueMap rid indexes ∧ v'.last = v.last ∧
        KeysUnseen C tr db.mgr txn.snapshot v.toContent table.name valueMap excludeRid indexes)
      (fun _ db' =>
        ¬AdmittedAll C tr table.name txn valueMap rid excludeRid (indexes.map (·.1)) db ∧
        ∃ v' n, Sound C tr db' v' ∧ Within db db' ∧
          v'.toContent = v.toContent.addKeys C table.name valueMap rid (indexes.take n) ∧
          v'.last = v.last) db := by
  induction indexes generalizing db v with
  | nil => exact wp.wpIf ⟨v, hs, .refl db, rfl, rfl, by simp [KeysUnseen]⟩
  | cons x indexes ih =>
    obtain ⟨i, idx⟩ := x
    rw [List.forall_mem_cons] at hindexes hgood hlacks
    obtain ⟨hnew, hnodup⟩ := List.nodup_cons.mp hnodup
    refine (wp_insertIntoIndex hs hc hindexes.1 hrid hlacks.1 hid hgood.1).run.bind
      (fun _ => sheds_insertIntoIndexes _ _ _ _ _ _) ?_ ?_
    · rintro ⟨⟩ db₁ - ⟨hrun, v₁, key, hs₁, hwithin, hkey, hcontent, hlast, hothers, hunseen⟩
      have hstep : ∀ l, v.toContent.addKeys C table.name valueMap rid ((i, idx) :: l) =
          v₁.toContent.addKeys C table.name valueMap rid l := fun l => by
        rw [hcontent]
        simp only [Content.addKeys, hkey]
      have htuples : v₁.tuples = v.tuples := by
        rw [hcontent]
        exact Content.tuples_addKey ..
      have hrid₁ : v₁.HasRid table.name rid := by
        rw [Content.HasRid, htuples]
        exact hrid
      have hlacks₁ : ∀ x ∈ indexes, v₁.Lacks db₁.pages table.name x.1 rid := fun x hx =>
        hothers x.1 (fun heq => hnew (List.mem_map.mpr ⟨x, hx, heq⟩)) (hlacks.2 x hx)
      refine (ih hs₁ (hwithin.current hc) hindexes.2 hnodup hrid₁ hlacks₁ hgood.2).mono ?_ ?_
      · rintro ⟨⟩ db₂ - ⟨v₂, hs₂, hwithin₂, hcontent₂, hlast₂, hunseen₂⟩
        refine ⟨v₂, hs₂, hwithin.trans hwithin₂, by rw [hcontent₂, hstep], hlast₂.trans hlast, ?_⟩
        refine List.forall_mem_cons.mpr ⟨fun htr hu key' k hkey' hk => ?_,
          fun x hx htr hu key' k hkey' hk => ?_⟩
        · obtain rfl := Option.some.inj (hkey.symm.trans hkey')
          exact hunseen htr hu k hk
        · -- the entries of the other indexes are as they were
          have hne : ¬(table.name = table.name ∧ x.1 = i) := fun h =>
            hnew (h.2 ▸ List.mem_map.mpr ⟨x, hx, rfl⟩)
          have hentries : v₁.entries table.name x.1 = v.entries table.name x.1 := by
            rw [hcontent]
            exact Content.entries_addKey_ne C v.toContent _ _ _ _ _ hne
          have h₂ := hunseen₂ x hx htr hu key' k hkey' hk
          intro rid' tup hentry hex hmem
          rw [← hwithin.sees]
          exact h₂ rid' tup (hentries ▸ hentry) hex (htuples ▸ hmem)
      · rintro e db₂ - ⟨hadm, v₂, n, hs₂, hwithin₂, hcontent₂, hlast₂⟩
        exact ⟨fun h => hadm (h.2 db₁ hrun), v₂, n + 1, hs₂, hwithin.trans hwithin₂,
          by rw [hcontent₂, List.take_succ_cons, hstep], hlast₂.trans hlast⟩
    · rintro e db₁ - ⟨-, hadm, v₁, hs₁, hwithin, hcontent, hlast⟩
      exact ⟨fun h => hadm h.1, v₁, 0, hs₁, hwithin, hcontent, hlast⟩

/-! ## A new version and its keys -/

/-- A new version of a row that is about to be entered into the indexes. -/
structure NewRow (C : Conversions) (table : TableMeta) (txn : Transaction) (c : Content)
    (values : List Value) (valueMap : Dict Value) (rid : RID) (tup : Tuple) : Prop where
  version : IsVersion C table txn values tup
  named : table.schema.names.mapM (lookup valueMap) = .ok values
  fresh : ¬c.HasRid table.name rid

/-- The key of a tuple in an index. -/
def HasKey (C : Conversions) (schema : Schema) (idx : IndexMeta) (tup : Tuple) (k : RawKey) : Prop :=
  ∃ value, columnValue schema idx.column tup = .ok value ∧
    BPlusTree.StoredAs C idx.keyType value k

/-- What goes into an index for a stored row is the key of the row, if it is faithful. -/
theorem NewRow.key {c : Content} {tup : Tuple} {idx : IndexMeta} {key : Value}
    (h : NewRow C table txn c values valueMap rid tup) (hkeyed : Keyed table idx)
    (hkey : valueMap.get? idx.column = some key) (hfaithful : Faithful C idx.keyType key) :
    ∃ k, BPlusTree.Enters C idx.keyType key k ∧ HasKey C table.schema idx tup k := by
  obtain ⟨hversion, hnamed, -⟩ := h
  obtain ⟨n, hindex, hcol, -⟩ := Schema.column_eq_ok hkeyed.column
  obtain ⟨value, cell, hvalue, hcell, hencode⟩ := encodeRow_getElem? hversion.encoded hcol
  have hmap := congrArg (·[n]?) (mapM_eq_ok.mp hnamed)
  simp only [Schema.names, List.getElem?_map, hcol, hvalue, Option.map_some, Option.some.injEq]
    at hmap
  obtain rfl := Option.some.inj (hkey.symm.trans (lookup_eq_ok.mp hmap))
  have htype : cell.type = idx.keyType := encodeValue_type hencode
  refine ⟨cell.rawKey, BPlusTree.enters_of_faithful hencode hfaithful hkeyed.indexable,
    cell.value, ?_, ?_⟩
  · have hdecode := decodeRow_eq (encodeRow_types hversion.encoded)
    simp only [columnValue, tuplePayload, hdecode, hindex, bind, Except.bind, pyGet,
      List.getElem?_map, hcell]
    rfl
  · rw [← htype]
    exact BPlusTree.storedAs_value (htype ▸ hkeyed.indexable)
      (BPlusTree.faithful_value hencode hfaithful)

/-- The indexes a statement has read, and what the layout knows of them. -/
theorem Current.indexes (hs : Sound C tr db v) (hc : Current db table) :
    (table.indexes.map (·.1)).Nodup ∧
      ∀ x ∈ table.indexes, table.indexes.get? x.1 = some x.2 ∧ Keyed table x.2 := by
  obtain ⟨table', ht, heq⟩ := hc
  have hnodup : (table.indexes.map (·.1)).Nodup := by
    have := hs.layout.nodup ht
    rwa [TableMeta.keys_of_shape heq] at this
  refine ⟨hnodup, fun x hx => ?_⟩
  have hget : table.indexes.get? x.1 = some x.2 := Dict.get?_eq_of_mem hnodup hx
  obtain ⟨idx', hi', hidx⟩ := TableMeta.get?_of_shape heq.symm hget
  obtain ⟨-, hcolumn, -, htype⟩ := IndexMeta.of_shape hidx
  obtain ⟨hkeyed, hindexable⟩ := hs.layout.keyed ht hi'
  rw [(TableMeta.of_shape heq).2.1, hcolumn, htype] at hkeyed
  exact ⟨hget, hkeyed, htype ▸ hindexable⟩

/-- The keys of a row that go into tracked indexes are faithful. -/
def FaithfulKeys (C : Conversions) (tr : Tracked) (table : TableMeta) (valueMap : Dict Value) : Prop :=
  ∀ x ∈ table.indexes, tr table.name x.1 x.2.keyType → ∀ key,
    valueMap.get? x.2.column = some key → Faithful C x.2.keyType key

/-- If the version is stored, every index lets it in. -/
def RowAdmitted (C : Conversions) (tr : Tracked) (table : TableMeta) (txn : Transaction)
    (values : List Value) (valueMap : Dict Value) (excludeRid : Option RID) (heap : HeapFile)
    (db : Database) : Prop :=
  ∀ rid heap' db', addVersion C table txn values heap db = .ok (rid, heap') db' →
    AdmittedAll C tr table.name txn valueMap rid excludeRid table.indexes.keys db'

/-- What INSERT and UPDATE do with a new version: it is stored and entered into every index, or
    into some of the first ones, or nothing is written. -/
theorem wp_addRow {β : Type} {f : HeapFile → β} (hs : Sound C tr db v) (hc : Current db table)
    (hid : txn.txnId < 2 ^ 32) (hnamed : table.schema.names.mapM (lookup valueMap) = .ok values)
    (hfaithful : FaithfulKeys C tr table valueMap) :
    wpIf Room (do
        let (rid, heap) ← addVersion C table txn values ⟨table.heapFirstPageId, v.last table.name⟩
        insertIntoIndexes C table.name txn valueMap rid excludeRid table.indexes.keys
        return f heap)
      (fun b db' => ∃ v' rid tup, Sound C tr db' v' ∧ Within db db' ∧
        b = f ⟨table.heapFirstPageId, v'.last table.name⟩ ∧
        NewRow C table txn v.toContent values valueMap rid tup ∧
        v'.toContent =
          (v.add table.name (rid, tup)).addKeys C table.name valueMap rid table.indexes ∧
        KeysUnseen C tr db.mgr txn.snapshot (v.add table.name (rid, tup)) table.name valueMap
          excludeRid table.indexes)
      (fun _ db' => (db' = db ∧ VersionRefused C table values) ∨
        (¬RowAdmitted C tr table txn values valueMap excludeRid
          ⟨table.heapFirstPageId, v.last table.name⟩ db ∧
        ∃ v' rid tup n, Sound C tr db' v' ∧ Within db db' ∧
          NewRow C table txn v.toContent values valueMap rid tup ∧
          v'.toContent = (v.add table.name (rid, tup)).addKeys C table.name valueMap rid
            (table.indexes.take n))) db := by
  obtain ⟨hnodup, hindexes⟩ := hc.indexes hs
  refine (wp_addVersion hs hc hid).run.bind (fun _ => .bind (sheds_insertIntoIndexes _ _ _ _ _ _)
    fun _ => (Reads.pure _).sheds) ?_ fun _ _ _ h => .inl h.2
  rintro ⟨rid, heap⟩ db₁ - ⟨hrun, v₁, tup, hs₁, hwithin, hversion, hfresh, hcontent, rfl, hlacks⟩
  have hnew : NewRow C table txn v.toContent values valueMap rid tup := ⟨hversion, hnamed, hfresh⟩
  have hrid : v₁.HasRid table.name rid := by
    rw [hcontent]
    exact ⟨tup, by simp [Content.add]⟩
  have hgood : ∀ x ∈ table.indexes, tr table.name x.1 x.2.keyType → ∀ key,
      valueMap.get? x.2.column = some key → ∃ k, BPlusTree.Enters C x.2.keyType key k :=
    fun x hx htr key hkey => by
      obtain ⟨k, hk, -⟩ := hnew.key (hindexes x hx).2 hkey (hfaithful x hx htr key hkey)
      exact ⟨k, hk⟩
  dsimp only
  refine (wp_insertIntoIndexes hs₁ (hwithin.current hc) (fun x hx => (hindexes x hx).1) hnodup hrid
    (fun x hx => hlacks _ _ (hindexes x hx).1) hid hgood).bind (fun _ => (Reads.pure _).sheds) ?_ ?_
  · rintro ⟨⟩ db₂ - ⟨v₂, hs₂, hwithin₂, hcontent₂, hlast₂, hunseen⟩
    refine wp.wpIf ⟨v₂, rid, tup, hs₂, hwithin.trans hwithin₂, by rw [hlast₂], hnew, ?_, ?_⟩
    · rw [hcontent₂, hcontent]
    · rw [← hcontent]
      intro x hx htr hu key k hkey hk rid' tup' hentry hex hmem
      rw [← hwithin.sees]
      exact hunseen x hx htr hu key k hkey hk rid' tup' hentry hex hmem
  · rintro e db₂ - ⟨hadm, v₂, n, hs₂, hwithin₂, hcontent₂, -⟩
    exact .inr ⟨fun h => hadm (h rid _ db₁ hrun), v₂, rid, tup, n, hs₂, hwithin.trans hwithin₂, hnew,
      by rw [hcontent₂, hcontent]⟩

end Rows
end Database
end Minirel
