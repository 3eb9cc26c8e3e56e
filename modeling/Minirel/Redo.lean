-- SUMMARY: Recovery, and the runs that it redoes page for page.
import Minirel.Isolation

/-!
# Redo

`_recover` applies the logged operations of committed transactions once more, one after the
other, to the pages as they are on disk. An operation does not say on which page its tuple
went or which nodes its key split: it is the same computation over again, and leads to the
same pages from the same pages.

A run is redone page for page if it has handed out no page, no write has failed half-way and
the transactions that wrote have all committed.
-/

namespace Minirel

variable {α ε τ κ : Type}

/-! ## Writes that hand out no page -/

/-- A file with more pages than before is not one with as many. -/
theorem wp_grown {m : PageM ε τ α} {s s₁ : PageFile ε τ} {P : α → PageFile ε τ → Prop}
    {E : PyError → PageFile ε τ → Prop} (hm : Extends m) (hlt : s.length < s₁.length) :
    wp m (fun a s' => s'.length = s.length → P a s') (fun e s' => s'.length = s.length → E e s') s₁ := by
  have hle := hm s₁
  apply wp_of
  · intro a s' hrun hlen
    rw [PageM.after_ok hrun] at hle
    omega
  · intro e s' hrun hlen
    rw [PageM.after_error hrun] at hle
    omega

/-- A page that was not torn has been written. -/
def Touches (s s' : PageFile ε τ) : Prop :=
  ∃ p old new, s[p]? = some old ∧ old ≠ .torn ∧ s' = s.set p new

/-- Whoever leaves no page torn has found none torn. -/
theorem Touches.whole {s s' : PageFile ε τ} (h : Touches s s') (hwhole : .torn ∉ s') : .torn ∉ s := by
  obtain ⟨p, old, new, hp, hold, rfl⟩ := h
  intro hmem
  obtain ⟨q, hq⟩ := List.mem_iff_getElem?.mp hmem
  have hne : p ≠ q := by
    rintro rfl
    exact hold (Option.some.inj (hp.symm.trans hq))
  apply hwhole
  apply List.mem_of_getElem? (i := q)
  rw [List.getElem?_set_ne hne, hq]

namespace BPlusTree
variable {K : KeyType κ ε} {s : PageFile ε τ} {root leafId nextLeaf : Nat}

/-- Where it hands out no page, an insertion into a leaf writes that leaf, or tears it, or does
    nothing. -/
theorem wp_insertInLeaf_flat {page : Page ε τ} (hpage : s[leafId]? = some page) (path : List Nat)
    (entries : List (κ × RID)) :
    wp (insertInLeaf K root path leafId entries nextLeaf)
      (fun root' s' => s'.length = s.length → root' = root ∧ ∃ new, s' = s.set leafId new)
      (fun _ s' => s'.length = s.length → s' = s ∨ .torn ∈ s') s := by
  unfold insertInLeaf
  split
  · rw [wp_bind]
    apply wp_putPage.mpr
    constructor
    · intro new _ _
      exact ⟨rfl, new, rfl⟩
    · intro e _ _
      right
      apply List.mem_of_getElem? (i := leafId)
      exact List.getElem?_set_self (List.getElem?_eq_some_iff.mp hpage).1
  · -- the leaf is cut: its right half goes to a new page
    rw [wp_bind, wp_lift]
    refine ⟨fun mid _ => ?_, fun e _ _ => .inl rfl⟩
    rw [wp_bind]
    apply (wp_of_ok (newPage_apply s)).mpr
    apply wp_grown
    · exact .bind (.putPage _ _) fun _ => .bind (.putPage _ _) fun _ => .bind (.lift _) fun _ =>
        extends_insertIntoParent _ _ _ _ _
    · simp

theorem wp_insert_flat (K : KeyType κ ε) (unique : Bool) (root : Nat) (x : κ) (rid : RID)
    (s : PageFile ε τ) :
    wp (insert K unique root x rid)
      (fun root' s' => s'.length = s.length → root' = root ∧ Touches s s')
      (fun _ s' => s'.length = s.length → s' = s ∨ .torn ∈ s') s := by
  have hstay : s.length = s.length → s = s ∨ Page.torn ∈ s := fun _ => .inl rfl
  unfold insert
  rw [wp_bind]
  refine (Reads.duplicates unique root x).wp (fun rids _ => ?_) fun _ _ => hstay
  split
  · exact hstay
  · rw [wp_bind]
    refine (Reads.findLeafPath root x).wp (fun path _ => ?_) fun _ _ => hstay
    rw [wp_bind]
    refine (Reads.fetchPage _).wp (fun page hfetch => ?_) fun _ _ => hstay
    obtain ⟨hpage, -⟩ := fetchPage_eq_ok.mp hfetch
    rw [wp_bind, wp_lift]
    refine ⟨fun ⟨entries, nextLeaf⟩ hread => ?_, fun _ _ => hstay⟩
    dsimp only
    rw [wp_bind, wp_lift]
    refine ⟨fun pos _ => ?_, fun _ _ => hstay⟩
    have htorn : page ≠ .torn := by
      rintro rfl
      cases hread
    refine wp.mono (wp_insertInLeaf_flat hpage path.dropLast.reverse _) ?_ fun _ _ h => h
    intro root' s' h hlen
    obtain ⟨hroot, new, hs'⟩ := h hlen
    exact ⟨hroot, _, page, new, hpage, htorn, hs'⟩

end BPlusTree

namespace HeapFile
variable {s s' : PageFile ε τ} {size : τ → Nat} {row : τ}

theorem fetchHeap_intact {pageId : Nat} {page : HeapPage τ} (h : fetchHeap pageId s = .ok page s') :
    ∃ old, s[pageId]? = some old ∧ old ≠ .torn := by
  obtain ⟨old, s₁, hfetch, hread⟩ := run_bind_eq_ok.mp h
  refine ⟨old, (fetchPage_eq_ok.mp hfetch).1, ?_⟩
  rintro rfl
  cases (PageM.lift_eq_ok.mp hread).1

/-- Where it hands out no page, an insertion writes the last page of the heap. -/
theorem insert_flat {h : HeapFile} {r : RID × HeapFile} (hrun : insert size row h s = .ok r s')
    (hlen : s'.length = s.length) : Touches s s' := by
  unfold HeapFile.insert at hrun
  split at hrun
  · cases hrun
  obtain ⟨page, s₁, hfetch, hinsert⟩ := run_bind_eq_ok.mp hrun
  obtain rfl := (reads_fetchHeap _).ok hfetch
  obtain ⟨old, hold, htorn⟩ := fetchHeap_intact hfetch
  dsimp only at hinsert
  generalize (if (page.slots.findIdx? (·.isNone)).isSome then 0 else slotSize) = needed at hinsert
  split at hinsert
  · -- the last page is full: a new one is linked to it
    exfalso
    obtain ⟨n, s₂, hnew, hinsert⟩ := run_bind_eq_ok.mp hinsert
    cases hnew
    have hlink : Extends (linkPage h.lastPageId page s₁.length : PageM ε τ Unit) := by
      unfold linkPage
      split
      · exact .putPage _ _
      · exact .throw _
    have hgrown : Extends (do
        writeHeap s₁.length initHeapPage
        linkPage h.lastPageId page s₁.length
        insertFrom size row 1 { h with lastPageId := s₁.length } : PageM ε τ (RID × HeapFile)) :=
      .bind (.putPage _ _) fun _ => .bind hlink fun _ => extends_insertFrom _ _ _ _
    have hle := hgrown (s₁ ++ [.zero])
    rw [PageM.after_ok hinsert] at hle
    simp only [List.length_append, List.length_singleton] at hle
    omega
  · cases hreuse : page.slots.findIdx? (·.isNone) with
    | some index =>
      simp only [hreuse] at hinsert
      obtain ⟨⟨⟩, s₂, hwrite, hret⟩ := run_bind_eq_ok.mp hinsert
      cases hret
      obtain ⟨new, -, rfl⟩ := putPage_eq_ok.mp hwrite
      exact ⟨_, old, new, hold, htorn, rfl⟩
    | none =>
      simp only [hreuse] at hinsert
      obtain ⟨⟨⟩, s₂, hwrite, hret⟩ := run_bind_eq_ok.mp hinsert
      cases hret
      obtain ⟨new, -, rfl⟩ := putPage_eq_ok.mp hwrite
      exact ⟨_, old, new, hold, htorn, rfl⟩

/-- Overwriting a tuple writes its page, or nothing. -/
theorem updateInPlace_flat {rid : RID} {new : τ} {b : Bool}
    (hrun : updateInPlace size rid new s = .ok b s') : s' = s ∨ Touches s s' := by
  obtain ⟨page, s₁, hfetch, hupdate⟩ := run_bind_eq_ok.mp hrun
  obtain rfl := (reads_fetchHeap _).ok hfetch
  obtain ⟨old, hold, htorn⟩ := fetchHeap_intact hfetch
  cases hslot : (page.slots[rid.slotId]?).join with
  | none =>
    simp only [hslot] at hupdate
    cases hupdate
    exact .inl rfl
  | some tup =>
    simp only [hslot] at hupdate
    split at hupdate
    · cases hupdate
      exact .inl rfl
    · obtain ⟨⟨⟩, s₂, hwrite, hret⟩ := run_bind_eq_ok.mp hupdate
      cases hret
      obtain ⟨page', -, rfl⟩ := putPage_eq_ok.mp hwrite
      exact .inr ⟨_, old, page', hold, htorn, rfl⟩

end HeapFile

/-- An index whose root stays is noted in the catalog as it was. -/
theorem Catalog.updateIndexRoot_self {catalog : Catalog} {table : TableMeta} {t i : String}
    {idx : IndexMeta} (hname : table.name = t) (ht : catalog.tables.get? t = some table)
    (hi : table.indexes.get? i = some idx) :
    catalog.updateIndexRoot t i idx.rootPageId = .ok catalog := by
  subst hname
  rw [Catalog.updateIndexRoot_eq ht hi, Catalog.withRoot, Catalog.setTable, Dict.set_of_get? hi,
    Dict.set_of_get? ht]

namespace Database

variable {C : Conversions} {db db' db₁ db₂ : Database} {v : View} {table : TableMeta}
  {txn : Transaction} {rid : RID}

/-! ## Recovery -/

/-- `_apply_recovery_op`. -/
def applyRecoveryOp (C : Conversions) (op : LogOp) : DbM Unit :=
  match op with
  | .heapInsert tableName tup _ => do
    let table ← getTable tableName
    let heap ← onPages (HeapFile.openAt table.heapFirstPageId)
    let _ ← onPages (heap.insert Tuple.size tup)
  | .heapSetXmax tableName rid xmax => do
    let table ← getTable tableName
    let _ ← onPages (HeapFile.openAt table.heapFirstPageId)
    match ← onPages (HeapFile.get rid) with
    | none => return
    | some raw =>
      let new ← lift (withXmax raw xmax)
      let _ ← onPages (HeapFile.updateInPlace Tuple.size rid new)
  | .btreeInsert tableName indexName key rid => do
    let _ ← getTable tableName
    let idx ← getIndex tableName indexName
    let root ← onPages (BPlusTree.insert (.ofColumn C idx.keyType) false idx.rootPageId key rid)
    updateIndexRoot tableName indexName root

/-- `self._apply_recovery_op(record.payload)`. Every record of an operation has a payload. -/
def applyRecord (C : Conversions) (record : LogRecord LogOp) : DbM Unit :=
  match record.payload with
  | some op => applyRecoveryOp C op
  | none => throw .typeError

/-- The loop of `_recover`. -/
def redo (C : Conversions) : List (LogRecord LogOp) → DbM Unit
  | [] => return
  | record :: records => do
    applyRecord C record
    redo C records

/-- `_recover`. The pages it flushes stay as they are. -/
def recover (C : Conversions) : DbM Unit := do
  let db ← get
  redo C (committedOperationsSinceCheckpoint db.mgr.wal)

theorem redo_append (records more : List (LogRecord LogOp)) :
    redo C (records ++ more) = redo C records >>= fun _ => redo C more := by
  induction records with
  | nil => rfl
  | cons record records ih =>
    simp only [List.cons_append, redo, ih, bind_assoc]

/-! ## What can be redone -/

/-- The operations among some records. -/
def operations (records : List (LogRecord LogOp)) : List (LogRecord LogOp) :=
  records.filter (·.type = .op)

/-- What happened from one state to a later one can be redone from the log: if no page has been
    handed out and none is torn, the operations logged since lead from the old pages to the new
    ones. -/
structure Redone (C : Conversions) (db db' : Database) : Prop where
  grown : db.pages.length ≤ db'.pages.length
  logged : ∃ records, db'.mgr.wal.records = db.mgr.wal.records ++ records ∧
    (∀ r ∈ records, r.type ≠ .checkpoint) ∧
    (db'.pages.length = db.pages.length → .torn ∉ db'.pages →
      .torn ∉ db.pages ∧ db'.catalog = db.catalog ∧ ∀ session,
        redo C (operations records) ⟨session, db.catalog, db.pages⟩ =
          .ok () ⟨session, db.catalog, db'.pages⟩)

theorem Redone.refl (C : Conversions) (db : Database) : Redone C db db where
  grown := le_rfl
  logged := ⟨[], by simp, by simp, fun _ hwhole => ⟨hwhole, rfl, fun _ => rfl⟩⟩

theorem Redone.trans (h : Redone C db db₁) (h' : Redone C db₁ db₂) : Redone C db db₂ where
  grown := h.grown.trans h'.grown
  logged := by
    obtain ⟨hgrown, records, hwal, hno, hredo⟩ := h
    obtain ⟨hgrown', records', hwal', hno', hredo'⟩ := h'
    refine ⟨records ++ records', ?_, ?_, fun hlen hwhole => ?_⟩
    · rw [hwal', hwal, List.append_assoc]
    · exact List.forall_mem_append.mpr ⟨hno, hno'⟩
    · obtain ⟨hwhole₁, hcatalog', hrun'⟩ := hredo' (by omega) hwhole
      obtain ⟨hwhole₀, hcatalog, hrun⟩ := hredo (by omega) hwhole₁
      refine ⟨hwhole₀, hcatalog'.trans hcatalog, fun session => ?_⟩
      rw [operations, List.filter_append]
      apply (congrFun (redo_append _ _) _).trans
      apply (run_bind_ok (hrun session)).trans
      rw [← hcatalog]
      exact hrun' session

instance : IsPreorder Database (Redone C) where
  refl := .refl C
  trans _ _ _ := .trans

/-- A change of the session that logs no operation. -/
theorem Redone.of_session {s : Session LogOp} (records : List (LogRecord LogOp))
    (hwal : s.mgr.wal.records = db.mgr.wal.records ++ records)
    (hno : ∀ r ∈ records, r.type ≠ .op ∧ r.type ≠ .checkpoint) :
    Redone C db { db with session := s } where
  grown := le_rfl
  logged := by
    refine ⟨records, hwal, fun r hr => (hno r hr).2, fun _ hwhole => ⟨hwhole, rfl, fun session => ?_⟩⟩
    have hnone : operations records = [] := by
      apply List.filter_eq_nil_iff.mpr
      intro r hr
      simpa using (hno r hr).1
    rw [hnone]
    rfl

/-- An operation that is done and then logged. -/
theorem Redone.of_op (op : LogOp) (hgrown : db.pages.length ≤ db'.pages.length)
    (hwal : db'.mgr.wal.records = db.mgr.wal.records ++ [⟨.op, txn.txnId, some op⟩])
    (hop : db'.pages.length = db.pages.length → .torn ∉ db'.pages →
      .torn ∉ db.pages ∧ db'.catalog = db.catalog ∧ ∀ session,
        applyRecoveryOp C op ⟨session, db.catalog, db.pages⟩ =
          .ok () ⟨session, db.catalog, db'.pages⟩) : Redone C db db' where
  grown := hgrown
  logged := by
    refine ⟨_, hwal, by simp, fun hlen hwhole => ?_⟩
    obtain ⟨hwhole₀, hcatalog, hrun⟩ := hop hlen hwhole
    refine ⟨hwhole₀, hcatalog, fun session => ?_⟩
    have hredo : redo C [⟨.op, txn.txnId, some op⟩] = applyRecoveryOp C op := by
      simp only [redo]
      exact bind_pure _
    rw [operations, List.filter_singleton]
    simp only [decide_true, cond_true]
    rw [hredo]
    exact hrun session

/-! ## The writes of a row -/

theorem lift_eq_ok {x : Except PyError α} {a : α} : lift x db = .ok a db' ↔ x = .ok a ∧ db' = db := by
  cases x with
  | ok b =>
    simp only [lift, EStateM.Result.ok.injEq, Except.ok.injEq]
    exact and_congr_right' eq_comm
  | error e => simp [lift]

/-- The log after an operation. -/
theorem logOperation_records (op : LogOp) (hid : txn.txnId < 2 ^ 32) (db : Database) :
    logOperation txn op db = .ok () { db with session := { db.session with mgr := { db.mgr with
      wal := { db.mgr.wal with
        records := db.mgr.wal.records ++ [⟨.op, txn.txnId, some op⟩] } } } } := by
  simp only [logOperation, WriteAheadLog.logOperation, WriteAheadLog.append_eq _ hid]

theorem wp_addVersion_redone {values : List Value} (hs : Sound C never db v) (hc : Current db table)
    (hid : txn.txnId < 2 ^ 32) :
    wpIf Room (addVersion C table txn values ⟨table.heapFirstPageId, v.last table.name⟩)
      (fun _ => Redone C db) (fun _ => Redone C db) db := by
  apply wp_of
  case herr =>
    intro e db' hrun hroom
    obtain ⟨rfl, -⟩ := (wp_addVersion hs hc hid).error hrun hroom
    exact .refl C db'
  intro r db' hrun hroom
  obtain ⟨table', ht, heq⟩ := hc
  obtain ⟨-, -, hfirst⟩ := TableMeta.of_shape heq
  obtain ⟨payload, db₁, hpayload, hrun₁⟩ := run_bind_eq_ok.mp hrun
  obtain ⟨-, rfl⟩ := lift_eq_ok.mp hpayload
  obtain ⟨tup, db₂, htup, hrun₂⟩ := run_bind_eq_ok.mp hrun₁
  obtain ⟨-, rfl⟩ := lift_eq_ok.mp htup
  obtain ⟨⟨rid, heap⟩, db₃, hstored, hrun₃⟩ := run_bind_eq_ok.mp hrun₂
  obtain ⟨pages, hinsert, rfl⟩ := onPages_eq_ok.mp hstored
  dsimp only at hrun₃
  rw [run_bind_ok (logOperation_records _ hid _)] at hrun₃
  cases hrun₃
  have hgrown := HeapFile.extends_insert (ε := RawKey) Tuple.size tup
    ⟨table.heapFirstPageId, v.last table.name⟩ db₂.pages
  rw [PageM.after_ok hinsert] at hgrown
  apply Redone.of_op (.heapInsert table.name tup rid) hgrown rfl
  intro hlen hwhole
  refine ⟨(HeapFile.insert_flat hinsert hlen).whole hwhole, rfl, fun session => ?_⟩
  have htable : getTable table.name ⟨session, db₂.catalog, db₂.pages⟩ =
      .ok table' ⟨session, db₂.catalog, db₂.pages⟩ := by
    simp only [getTable, Catalog.getTable, ht, lift]
  have hopen : onPages (HeapFile.openAt table'.heapFirstPageId) ⟨session, db₂.catalog, db₂.pages⟩ =
      .ok ⟨table.heapFirstPageId, v.last table.name⟩ ⟨session, db₂.catalog, db₂.pages⟩ := by
    apply onPages_eq_ok.mpr
    exact ⟨_, by rw [(hs.layout.heap ht).openAt, hfirst], rfl⟩
  simp only [applyRecoveryOp]
  rw [run_bind_ok htable, run_bind_ok hopen]
  have hagain : onPages (HeapFile.insert Tuple.size tup ⟨table.heapFirstPageId, v.last table.name⟩)
      ⟨session, db₂.catalog, db₂.pages⟩ = .ok (rid, heap) ⟨session, db₂.catalog, pages⟩ :=
    onPages_eq_ok.mpr ⟨_, hinsert, rfl⟩
  exact run_bind_ok hagain

theorem wp_stampVersion_redone {raw : Tuple} (hs : Sound C never db v) (hc : Current db table)
    (hid : txn.txnId < 2 ^ 32) (hmem : (rid, raw) ∈ v.tuples table.name) :
    wp (stampVersion table txn rid raw) (fun _ => Redone C db) (fun _ => Redone C db) db := by
  apply wp_of
  case herr =>
    intro e db' hrun
    exact ((wp_stampVersion hs hc hid hmem).error hrun).elim
  intro r db' hrun
  obtain ⟨table', ht, -⟩ := hc
  obtain ⟨new, db₁, hlift, hrun₁⟩ := run_bind_eq_ok.mp hrun
  obtain ⟨hnew, rfl⟩ := lift_eq_ok.mp hlift
  obtain ⟨b, db₂, hwritten, hrun₂⟩ := run_bind_eq_ok.mp hrun₁
  obtain ⟨pages, hupdate, rfl⟩ := onPages_eq_ok.mp hwritten
  rw [logOperation_records _ hid] at hrun₂
  cases hrun₂
  have hgrown := HeapFile.extends_updateInPlace (ε := RawKey) Tuple.size rid new db₁.pages
  rw [PageM.after_ok hupdate] at hgrown
  apply Redone.of_op (.heapSetXmax table.name rid txn.txnId) hgrown rfl
  intro hlen hwhole
  have hwhole₀ : .torn ∉ db₁.pages := by
    obtain heq | htouches := HeapFile.updateInPlace_flat hupdate
    · exact heq ▸ hwhole
    · exact htouches.whole hwhole
  refine ⟨hwhole₀, rfl, fun session => ?_⟩
  have htable : getTable table.name ⟨session, db₁.catalog, db₁.pages⟩ =
      .ok table' ⟨session, db₁.catalog, db₁.pages⟩ := by
    simp only [getTable, Catalog.getTable, ht, lift]
  have hopen : onPages (HeapFile.openAt table'.heapFirstPageId) ⟨session, db₁.catalog, db₁.pages⟩ =
      .ok ⟨table'.heapFirstPageId, v.last table.name⟩ ⟨session, db₁.catalog, db₁.pages⟩ :=
    onPages_eq_ok.mpr ⟨_, (hs.layout.heap ht).openAt, rfl⟩
  have hfound : onPages (HeapFile.get rid) ⟨session, db₁.catalog, db₁.pages⟩ =
      .ok (some raw) ⟨session, db₁.catalog, db₁.pages⟩ :=
    onPages_eq_ok.mpr ⟨_, (hs.layout.heap ht).get hmem, rfl⟩
  have hstamp : lift (withXmax raw txn.txnId) ⟨session, db₁.catalog, db₁.pages⟩ =
      .ok new ⟨session, db₁.catalog, db₁.pages⟩ := lift_eq_ok.mpr ⟨hnew, rfl⟩
  have hagain : onPages (HeapFile.updateInPlace Tuple.size rid new)
      ⟨session, db₁.catalog, db₁.pages⟩ = .ok b ⟨session, db₁.catalog, pages⟩ :=
    onPages_eq_ok.mpr ⟨_, hupdate, rfl⟩
  simp only [applyRecoveryOp]
  rw [run_bind_ok htable, run_bind_ok hopen, run_bind_ok hfound]
  dsimp only
  rw [run_bind_ok hstamp]
  exact run_bind_ok hagain

theorem wp_insertIntoIndex_redone {i : String} {idx : IndexMeta} {valueMap : Dict Value}
    {excludeRid : Option RID} (hs : Sound C never db v) (hc : Current db table)
    (hi : table.indexes.get? i = some idx) (hid : txn.txnId < 2 ^ 32) :
    wp (insertIntoIndex C table.name txn valueMap rid excludeRid i)
      (fun _ => Redone C db) (fun _ => Redone C db) db := by
  obtain ⟨table', idx', ht, hi', -, hget⟩ := hc.index hi
  have hname : table'.name = table.name := hs.layout.name_eq ht
  have hfind : ∀ session pages, getIndex table.name i ⟨session, db.catalog, pages⟩ =
      .ok idx' ⟨session, db.catalog, pages⟩ := by
    intro session pages
    simp only [getIndex, hget, lift]
  unfold insertIntoIndex
  apply wp_bind.mpr
  apply (wp_of_ok (hfind db.session db.pages)).mpr
  apply wp_bind.mpr
  refine wp_lift.mpr ⟨fun key _ => ?_, fun _ _ => .refl C db⟩
  apply wp_bind.mpr
  refine wp.mono (wp_checkUniqueConstraint key hs ht hi') ?_ fun _ db' h => h ▸ .refl C db
  rintro ⟨⟩ db' ⟨rfl, -⟩
  have hgrown := BPlusTree.extends_insert (K := .ofColumn C idx'.keyType) (τ := Tuple) false
    idx'.rootPageId key rid db.pages
  have hflat := BPlusTree.wp_insert_flat (τ := Tuple) (.ofColumn C idx'.keyType) false idx'.rootPageId
    key rid db.pages
  apply wp_bind.mpr
  apply wp_onPages.mpr
  apply wp_of
  · -- the tree takes the key: what is logged does the same again
    intro root pages hrun
    rw [PageM.after_ok hrun] at hgrown
    have hcatalog : ∀ session, updateIndexRoot table.name i root ⟨session, db.catalog, pages⟩ =
        .ok () ⟨session, db.catalog.withRoot table' i idx' root, pages⟩ := by
      intro session
      simp only [updateIndexRoot, Catalog.updateIndexRoot_eq ht hi']
    apply wp_bind.mpr
    apply (wp_of_ok (hcatalog db.session)).mpr
    apply (wp_of_ok (logOperation_records _ hid _)).mpr
    refine .of_op (.btreeInsert table.name i key rid) hgrown rfl fun hlen hwhole => ?_
    obtain ⟨rfl, htouches⟩ := hflat.ok hrun hlen
    have hsame : db.catalog.withRoot table' i idx' idx'.rootPageId = db.catalog := by
      apply Except.ok.inj
      rw [← Catalog.updateIndexRoot_eq ht hi']
      exact Catalog.updateIndexRoot_self hname ht hi'
    refine ⟨htouches.whole hwhole, hsame, fun session => ?_⟩
    have htable : getTable table.name ⟨session, db.catalog, db.pages⟩ =
        .ok table' ⟨session, db.catalog, db.pages⟩ := by
      simp only [getTable, Catalog.getTable, ht, lift]
    have hagain : onPages (BPlusTree.insert (.ofColumn C idx'.keyType) false idx'.rootPageId key rid)
        ⟨session, db.catalog, db.pages⟩ = .ok idx'.rootPageId ⟨session, db.catalog, pages⟩ :=
      onPages_eq_ok.mpr ⟨_, hrun, rfl⟩
    simp only [applyRecoveryOp]
    rw [run_bind_ok htable, run_bind_ok (hfind session db.pages), run_bind_ok hagain, hcatalog, hsame]
  · -- nothing is logged for a key that the tree has not taken
    intro e pages hrun
    rw [PageM.after_error hrun] at hgrown
    refine ⟨hgrown, [], (List.append_nil _).symm, by simp, fun hlen hwhole => ?_⟩
    obtain rfl | htorn := hflat.error hrun hlen
    · exact ⟨hwhole, rfl, fun _ => rfl⟩
    · exact absurd htorn hwhole

theorem wp_insertIntoIndexes_redone {indexes : List (String × IndexMeta)} {valueMap : Dict Value}
    {excludeRid : Option RID} (hs : Sound C never db v) (hc : Current db table)
    (hindexes : ∀ x ∈ indexes, table.indexes.get? x.1 = some x.2)
    (hnodup : (indexes.map (·.1)).Nodup) (hrid : v.HasRid table.name rid)
    (hlacks : ∀ x ∈ indexes, v.Lacks db.pages table.name x.1 rid) (hid : txn.txnId < 2 ^ 32) :
    wpIf Room (insertIntoIndexes C table.name txn valueMap rid excludeRid (indexes.map (·.1)))
      (fun _ => Redone C db) (fun _ => Redone C db) db := by
  induction indexes generalizing db v with
  | nil => exact wp.wpIf (.refl C db)
  | cons x indexes ih =>
    obtain ⟨i, idx⟩ := x
    rw [List.forall_mem_cons] at hindexes hlacks
    obtain ⟨hnew, hnodup⟩ := List.nodup_cons.mp hnodup
    have hredone : wpIf Room (insertIntoIndex C table.name txn valueMap rid excludeRid i)
        (fun _ => Redone C db) (fun _ => Redone C db) db :=
      (wp_insertIntoIndex_redone hs hc hindexes.1 hid).wpIf
    refine wp.bind (wp.and hredone (wp_insertIntoIndex hs hc hindexes.1 hrid hlacks.1 hid
      fun htr => htr.elim)) ?_ fun _ _ h hroom => h.1 hroom
    rintro ⟨⟩ db₁ ⟨hredone, hentered⟩
    apply (sheds_insertIntoIndexes _ _ _ _ _ _).start
    intro hroom
    obtain ⟨v₁, key, hs₁, hwithin, -, hcontent, -, hothers, -⟩ := hentered hroom
    have hrid₁ : v₁.HasRid table.name rid := by
      rw [hcontent, Content.HasRid, Content.tuples_addKey]
      exact hrid
    have hlacks₁ : ∀ x ∈ indexes, v₁.Lacks db₁.pages table.name x.1 rid := fun x hx =>
      hothers x.1 (fun heq => hnew (List.mem_map.mpr ⟨x, hx, heq⟩)) (hlacks.2 x hx)
    exact wpIf.mono (ih hs₁ (hwithin.current hc) hindexes.2 hnodup hrid₁ hlacks₁)
      (fun _ _ _ h => (hredone hroom).trans h) fun _ _ _ h => (hredone hroom).trans h

/-! ## Statements -/

/-- A version and its keys. -/
theorem wp_addRow_redone {β : Type} {f : HeapFile → β} {values : List Value} {valueMap : Dict Value}
    {excludeRid : Option RID} (hs : Sound C never db v) (hc : Current db table)
    (hid : txn.txnId < 2 ^ 32) :
    wpIf Room (do
        let (rid, heap) ← addVersion C table txn values ⟨table.heapFirstPageId, v.last table.name⟩
        insertIntoIndexes C table.name txn valueMap rid excludeRid table.indexes.keys
        return f heap) (fun _ => Redone C db) (fun _ => Redone C db) db := by
  obtain ⟨hnodup, hindexes⟩ := hc.indexes hs
  have hredone : wpIf Room (addVersion C table txn values ⟨table.heapFirstPageId, v.last table.name⟩)
      (fun _ => Redone C db) (fun _ => Redone C db) db := wp_addVersion_redone hs hc hid
  refine wp.bind (wp.and hredone (wp_addVersion hs hc hid)) ?_ fun _ _ h hroom => h.1 hroom
  rintro ⟨rid, heap⟩ db₁ ⟨hredone, hadded⟩
  apply (Sheds.bind (sheds_insertIntoIndexes _ _ _ _ _ _) fun _ => (Reads.pure _).sheds).start
  intro hroom
  obtain ⟨v₁, tup, hs₁, hwithin, -, -, hcontent, -, hlacks⟩ := hadded hroom
  have hrid : v₁.HasRid table.name rid := by
    rw [hcontent]
    exact ⟨tup, by simp [Content.add]⟩
  refine wp.bind (wp_insertIntoIndexes_redone hs₁ (hwithin.current hc) (fun x hx => (hindexes x hx).1)
    hnodup hrid (fun x hx => hlacks _ _ (hindexes x hx).1) hid) ?_ ?_
  · intro _ db₂ h hroom₂
    exact (hredone hroom).trans (h hroom₂)
  · intro _ db₂ h hroom₂
    exact (hredone hroom).trans (h hroom₂)

theorem faithfulKeys_never (table : TableMeta) (valueMap : Dict Value) :
    FaithfulKeys C never table valueMap := fun _ _ h => h.elim

theorem wp_insertRows_redone {rows : List (List Value)} (hs : Sound C never db v)
    (hc : Current db table) (hid : txn.txnId < 2 ^ 32) (hnamed : ∀ values ∈ rows, Named table values) :
    wpIf Room (insertRows C table txn rows ⟨table.heapFirstPageId, v.last table.name⟩)
      (fun _ => Redone C db) (fun _ => Redone C db) db := by
  induction rows generalizing db v with
  | nil => exact wp.wpIf (.refl C db)
  | cons values rows ih =>
    rw [List.forall_mem_cons] at hnamed
    have hredone : wpIf Room
        (insertRow C table txn values ⟨table.heapFirstPageId, v.last table.name⟩)
        (fun _ => Redone C db) (fun _ => Redone C db) db :=
      wp_addRow_redone (f := fun heap => heap) hs hc hid
    have hrow := wp_insertRow [] hs hc hid hnamed.1 (faithfulKeys_never table _) False.elim
    refine wp.bind (wp.and hredone hrow) ?_ fun _ _ h hroom => h.1 hroom
    rintro heap db₁ ⟨hredone, hrow⟩
    apply (sheds_insertRows _ _ _ _).start
    intro hroom
    obtain ⟨v₁, rfl, hs₁, hwithin, -⟩ := hrow hroom
    exact wpIf.mono (ih hs₁ (hwithin.current hc) hnamed.2) (fun _ _ _ h => (hredone hroom).trans h)
      fun _ _ _ h => (hredone hroom).trans h

theorem wp_deleteRow_redone {row : Row} (hs : Sound C never db v) (hc : Current db table)
    (hid : txn.txnId < 2 ^ 32) (hrow : rowRid row = .ok rid) (hhas : v.HasRid table.name rid) :
    wp (deleteRow table txn row) (fun _ => Redone C db) (fun _ => Redone C db) db := by
  obtain ⟨raw, hmem⟩ := hhas
  rw [deleteRow, wp_bind, wp_lift]
  refine ⟨fun rid' hrid' => ?_, fun e herr => by rw [hrow] at herr; cases herr⟩
  obtain rfl := Except.ok.inj (hrow.symm.trans hrid')
  rw [wp_bind, wp_of_ok (hs.get hc hmem)]
  dsimp only
  rw [wp_bind, wp_get, wp_bind, wp_lift]
  refine ⟨fun _ _ => ?_, fun _ _ => .refl C db⟩
  exact (wp_stampVersion_redone hs hc hid hmem).bind (fun _ _ h => h) fun _ _ h => h

theorem wp_deleteRows_redone {rows : List Row} {rids : List RID} (hs : Sound C never db v)
    (hc : Current db table) (hid : txn.txnId < 2 ^ 32)
    (hrows : Rooted v.toContent table.name rows rids) :
    wp (deleteRows table txn rows) (fun _ => Redone C db) (fun _ => Redone C db) db := by
  induction rows generalizing db v rids with
  | nil => exact .refl C db
  | cons row rows ih =>
    obtain ⟨rid, rids, rfl, hrid, hhas, hrows⟩ := hrows.cons
    have hredone := wp_deleteRow_redone hs hc hid hrid hhas
    have hrow : wp (deleteRow table txn row) _
        (fun _ db' => ∃ v', Raised C never False [.delete rid] db v table txn db' v') db :=
      wp_deleteRow [] hs hc hid hrid hhas
    refine wp.bind (wp.and hredone hrow) ?_ fun _ _ h => h.1
    rintro n db₁ ⟨hredone, -, v₁, hs₁, hwithin, hstep⟩
    refine wp.bind (ih hs₁ (hwithin.current hc) (hrows.step hstep)) ?_ fun _ _ h => hredone.trans h
    intro m db₂ h
    exact hredone.trans h

theorem wp_updateRow_redone {assignments : List (String × Expr)} {row : Row}
    (hs : Sound C never db v) (hc : Current db table) (hid : txn.txnId < 2 ^ 32)
    (hrow : rowRid row = .ok rid) (hhas : v.HasRid table.name rid) :
    wpIf Room (updateRow C table assignments txn row ⟨table.heapFirstPageId, v.last table.name⟩)
      (fun _ => Redone C db) (fun _ => Redone C db) db := by
  obtain ⟨raw, hmem⟩ := hhas
  unfold updateRow
  apply wp_bind.mpr
  refine wp_lift.mpr ⟨fun rid' hrid' => ?_, fun e herr => by rw [hrow] at herr; cases herr⟩
  obtain rfl := Except.ok.inj (hrow.symm.trans hrid')
  apply wp_bind.mpr
  apply (wp_of_ok (hs.get hc hmem)).mpr
  dsimp only
  apply wp_bind.mpr
  apply wp_get.mpr
  apply wp_bind.mpr
  refine wp_lift.mpr ⟨fun _ _ => ?_, fun _ _ _ => .refl C db⟩
  apply wp_bind.mpr
  refine wp_lift.mpr ⟨fun oldValues _ => ?_, fun _ _ _ => .refl C db⟩
  apply wp_bind.mpr
  refine wp_lift.mpr ⟨fun valueMap _ => ?_, fun _ _ _ => .refl C db⟩
  apply wp_bind.mpr
  refine wp_lift.mpr ⟨fun newValues _ => ?_, fun _ _ _ => .refl C db⟩
  refine wp.bind (wp.and (wp_stampVersion_redone hs hc hid hmem) (wp_stampVersion hs hc hid hmem)) ?_
    fun _ _ h _ => h.1
  rintro ⟨⟩ db₁ ⟨hredone, v₁, new, hs₁, hwithin, -, -, hlast⟩
  rw [← hlast]
  exact wpIf.mono (wp_addRow_redone (f := fun heap => (1, heap)) hs₁ (hwithin.current hc) hid) (fun _ _ _ h => hredone.trans h) fun _ _ _ h => hredone.trans h

theorem wp_updateRows_redone {assignments : List (String × Expr)} {rows : List Row} {rids : List RID}
    (hs : Sound C never db v) (hc : Current db table) (hid : txn.txnId < 2 ^ 32)
    (hrows : Rooted v.toContent table.name rows rids) :
    wpIf Room (updateRows C table assignments txn rows ⟨table.heapFirstPageId, v.last table.name⟩)
      (fun _ => Redone C db) (fun _ => Redone C db) db := by
  induction rows generalizing db v rids with
  | nil => exact wp.wpIf (.refl C db)
  | cons row rows ih =>
    obtain ⟨rid, rids, rfl, hrid, hhas, hrows⟩ := hrows.cons
    have hredone : wpIf Room
        (updateRow C table assignments txn row ⟨table.heapFirstPageId, v.last table.name⟩)
        (fun _ => Redone C db) (fun _ => Redone C db) db := wp_updateRow_redone hs hc hid hrid hhas
    refine wp.bind (wp.and hredone (wp_updateRow [] hs hc hid hrid hhas
      (fun _ _ _ _ => faithfulKeys_never table _) False.elim)) ?_ fun _ _ h hroom => h.1 hroom
    rintro ⟨n, heap⟩ db₁ ⟨hredone, hrow⟩
    apply (Sheds.bind (sheds_updateRows _ _ _ _ _) fun _ => (Reads.pure _).sheds).start
    intro hroom
    obtain ⟨-, v₁, rfl, hs₁, hwithin, hstep⟩ := hrow hroom
    refine wp.bind (ih hs₁ (hwithin.current hc) (hrows.step hstep)) ?_ ?_
    · intro _ db₂ h hroom₂
      exact (hredone hroom).trans (h hroom₂)
    · intro _ db₂ h hroom₂
      exact (hredone hroom).trans (h hroom₂)

/-- A statement on rows can be redone, whether it returns or raises. -/
theorem wp_dispatch_redone {stmt : Statement} (hrows : stmt.OnRows) (hs : Sound C never db v)
    (hid : txn.txnId < 2 ^ 32) :
    wpIf Room (dispatch C stmt txn) (fun _ => Redone C db) (fun _ => Redone C db) db := by
  have hopen : ∀ {t table}, db.catalog.getTable t = .ok table → table.name = t ∧ Current db table ∧
      onPages (HeapFile.openAt table.heapFirstPageId) db =
        .ok ⟨table.heapFirstPageId, v.last table.name⟩ db ∧
      db.catalog.tables.get? table.name = some table := by
    intro t table ht
    obtain ⟨rfl, hself, hc⟩ := hs.current ht
    exact ⟨rfl, hc, onPages_eq_ok.mpr ⟨_, hs.openAt hself, rfl⟩, hself⟩
  cases stmt with
  | createTable table columns => exact hrows.elim
  | createIndex name table column unique => exact hrows.elim
  | insert t columns exprs =>
    apply wp_bind.mpr
    refine wp_getTable.mpr ⟨fun table ht => ?_, fun _ _ _ => .refl C db⟩
    obtain ⟨rfl, hc, hopen, -⟩ := hopen ht
    apply wp_bind.mpr
    apply (wp_of_ok hopen).mpr
    apply wp_bind.mpr
    refine wp_lift.mpr ⟨fun rows hresolve => ?_, fun _ _ _ => .refl C db⟩
    exact wp.bind (wp_insertRows_redone hs hc hid (named_of_resolve hresolve)) (fun _ _ h => h)
      fun _ _ h => h
  | update t assignments where_ =>
    apply wp_bind.mpr
    refine wp_getTable.mpr ⟨fun table ht => ?_, fun _ _ _ => .refl C db⟩
    obtain ⟨rfl, hc, hopen, hself⟩ := hopen ht
    apply wp_bind.mpr
    apply (wp_of_ok hopen).mpr
    apply wp_bind.mpr
    refine (reads_matching table where_ txn).wp (fun rows hmatching => ?_) fun _ _ _ => .refl C db
    obtain ⟨rids, hrooted⟩ := hs.matching hself hmatching
    exact wp.bind (wp_updateRows_redone hs hc hid hrooted) (fun _ _ h => h) fun _ _ h => h
  | delete t where_ =>
    apply wp_bind.mpr
    refine wp_getTable.mpr ⟨fun table ht => ?_, fun _ _ _ => .refl C db⟩
    obtain ⟨rfl, hc, hopen, hself⟩ := hopen ht
    apply wp_bind.mpr
    apply (wp_of_ok hopen).mpr
    apply wp_bind.mpr
    refine (reads_matching table where_ txn).wp (fun rows hmatching => ?_) fun _ _ _ => .refl C db
    obtain ⟨rids, hrooted⟩ := hs.matching hself hmatching
    exact wp.bind (wp_deleteRows_redone hs hc hid hrooted).wpIf (fun _ _ h => h) fun _ _ h => h

/-! ## Tables and indexes -/

/-- Pages may have been added; the session is the same. -/
def Adds (db db' : Database) : Prop :=
  db.pages.length ≤ db'.pages.length ∧ db'.session = db.session

instance : IsPreorder Database Adds where
  refl _ := ⟨le_rfl, rfl⟩
  trans _ _ _ h h' := ⟨h.1.trans h'.1, h'.2.trans h.2⟩

theorem adds_onPages {m : PagesM α} (hm : Extends m) : Follows Adds (onPages m) := by
  intro db
  have hle := hm db.pages
  apply wp_onPages.mpr
  apply wp_of
  · intro a pages hrun
    rw [PageM.after_ok hrun] at hle
    exact ⟨hle, rfl⟩
  · intro e pages hrun
    rw [PageM.after_error hrun] at hle
    exact ⟨hle, rfl⟩

theorem adds_updateIndexRoot (t i : String) (root : Nat) : Follows Adds (updateIndexRoot t i root) := by
  intro db
  unfold wp updateIndexRoot
  cases db.catalog.updateIndexRoot t i root <;> exact ⟨le_rfl, rfl⟩

/-- A page has been added, or nothing has happened. -/
def AddsPage (db db' : Database) : Prop :=
  db' = db ∨ db.pages.length < db'.pages.length ∧ db'.session = db.session

theorem AddsPage.redone (h : AddsPage db db') : Redone C db db' := by
  obtain rfl | ⟨hlt, hsession⟩ := h
  · exact .refl C db'
  · refine ⟨hlt.le, [], ?_, by simp, fun hlen => absurd hlen hlt.ne'⟩
    rw [mgr, mgr, hsession, List.append_nil]

/-- What begins by asking for a page leaves the file larger. -/
theorem wp_onPages_new {f : Nat → PagesM α} (hf : ∀ n, Extends (f n)) (db : Database) :
    wp (onPages (newPage >>= f))
      (fun _ db' => db.pages.length < db'.pages.length ∧ db'.session = db.session)
      (fun _ db' => db.pages.length < db'.pages.length ∧ db'.session = db.session) db := by
  have hle := hf db.pages.length (db.pages ++ [.zero])
  simp only [List.length_append, List.length_singleton] at hle
  apply wp_onPages.mpr
  apply wp_bind.mpr
  apply (wp_of_ok (newPage_apply db.pages)).mpr
  apply wp_of
  · intro a pages hrun
    rw [PageM.after_ok hrun] at hle
    exact ⟨hle, rfl⟩
  · intro e pages hrun
    rw [PageM.after_error hrun] at hle
    exact ⟨hle, rfl⟩

theorem wp_createTable_adds (t : String) (columns : List Column) (db : Database) :
    wp (executeCreateTable t columns) (fun _ => AddsPage db) (fun _ => AddsPage db) db := by
  unfold executeCreateTable createTable
  rw [wp_bind, wp_bind, wp_get]
  split
  · exact .inl rfl
  · rw [wp_bind]
    refine wp.mono (wp_onPages_new (fun _ => .bind (.putPage _ _) fun _ => (HeapFile.reads_openAt _).extends)
      db) ?_ fun _ _ h => .inr h
    intro heap db₁ h
    exact .inr h

theorem wp_createIndex_adds (t i column : String) (unique : Bool) (db : Database) :
    wp (createIndex C t i column unique)
      (fun _ db' => db.pages.length < db'.pages.length ∧ db'.session = db.session)
      (fun _ => AddsPage db) db := by
  unfold createIndex
  rw [wp_bind]
  refine (reads_getTable t).wp (fun table _ => ?_) fun _ _ => .inl rfl
  split
  · exact .inl rfl
  · rw [wp_bind, wp_lift]
    refine ⟨fun col _ => ?_, fun _ _ => .inl rfl⟩
    split
    · exact .inl rfl
    · rw [wp_bind]
      refine wp.mono (wp_onPages_new (fun _ => .bind (.putPage _ _) fun _ => .pure _) db) ?_
        fun _ _ h => .inr h
      intro root db₁ h
      exact h

theorem wp_executeCreateIndex_adds (i t column : String) (unique : Bool) (db : Database) :
    wp (executeCreateIndex C i t column unique) (fun _ => AddsPage db) (fun _ => AddsPage db) db := by
  unfold executeCreateIndex
  rw [wp_bind]
  refine (reads_getTable t).wp (fun table _ => ?_) fun _ _ => .inl rfl
  refine wp.bind (wp_createIndex_adds t i column unique db) ?_ fun _ _ h => h
  rintro idx db₁ ⟨hlt, hsession⟩
  -- from here on no page is given back
  have hrest : Follows Adds (do
      let heap ← onPages (HeapFile.openAt table.heapFirstPageId)
      let colIndex ← lift (table.schema.indexOf column)
      let tuples ← onPages heap.scan
      let root ← onPages (backfill (.ofColumn C idx.keyType) table.schema colIndex idx.rootPageId tuples)
      updateIndexRoot t i root
      return ({ message := s!"CREATE INDEX {i}" } : ExecuteResult)) :=
    .bind (reads_onPages (HeapFile.reads_openAt _)).follows fun _ => .bind (reads_lift _).follows fun _ =>
    .bind (reads_onPages (HeapFile.reads_scan _)).follows fun _ =>
    .bind (adds_onPages (extends_backfill _ _ _ _ _)) fun _ =>
    .bind (adds_updateIndexRoot _ _ _) fun _ => (Reads.pure _).follows
  refine wp.mono (hrest db₁) ?_ ?_
  · rintro _ db₂ ⟨hle, hsame⟩
    exact .inr ⟨hlt.trans_le hle, hsame.trans hsession⟩
  · rintro _ db₂ ⟨hle, hsame⟩
    exact .inr ⟨hlt.trans_le hle, hsame.trans hsession⟩

theorem redone_create {stmt : Statement} (hcreate : ¬stmt.OnRows) (db : Database) :
    Redone C db (after (execute C stmt none) db) := by
  apply AddsPage.redone
  cases stmt with
  | createTable table columns => exact wp_after (wp_createTable_adds table columns db)
  | createIndex name table column unique =>
    exact wp_after (wp_executeCreateIndex_adds name table column unique db)
  | insert table columns exprs => exact absurd trivial hcreate
  | update table assignments where_ => exact absurd trivial hcreate
  | delete table where_ => exact absurd trivial hcreate

/-! ## Runs -/

/-- A call on the manager logs no operation. -/
theorem redone_session (db : Database) (c : TxnCall) :
    Redone C db { db with session := db.session.step c } := by
  have hone : ∀ r : LogRecord LogOp, r.type ≠ .op → r.type ≠ .checkpoint →
      ∀ r' ∈ [r], r'.type ≠ .op ∧ r'.type ≠ .checkpoint := by
    intro r hop hcheck r' hr'
    rw [List.mem_singleton.mp hr']
    exact ⟨hop, hcheck⟩
  cases c with
  | begin =>
    obtain ⟨-, heq⟩ | ⟨-, heq⟩ := db.session.step_begin_cases
    · apply Redone.of_session [⟨.begin, db.mgr.nextTxnId, none⟩]
      · rw [heq]
        rfl
      · exact hone _ nofun nofun
    · apply Redone.of_session []
      · rw [heq, List.append_nil]
        rfl
      · simp
  | commit t =>
    obtain heq | ⟨txn, -, -, heq⟩ := db.session.step_commit_cases t
    · rw [heq]
      exact .refl C db
    · apply Redone.of_session [⟨.commit, txn.txnId, none⟩]
      · rw [heq]
        rfl
      · exact hone _ nofun nofun
  | abort t =>
    obtain heq | ⟨txn, -, -, heq⟩ := db.session.step_abort_cases t
    · rw [heq]
      exact .refl C db
    · apply Redone.of_session [⟨.abort, txn.txnId, none⟩]
      · rw [heq]
        rfl
      · exact hone _ nofun nofun

theorem redone_step {call : Call} (h : Step C db call db') (hg : Good C never db) (hroom : Room db')
    (hcheck : call ≠ .checkpoint) (hreopen : call ≠ .reopen) : Redone C db db' := by
  apply step_rule (R := Redone C) h hg hroom (.refl C) Redone.trans
  case session => exact fun db₁ c _ _ _ => redone_session db₁ c
  case rows =>
    intro db₁ stmt txn n hrows _ hg₁ hn hroom₁
    obtain ⟨hi, v, hs⟩ := hg₁
    obtain ⟨hid, -, -, hlt⟩ := hi.handle hn
    exact wp_after (P := fun db' => Room db' → Redone C db₁ db')
      (wp_dispatch_redone hrows hs (hid ▸ hlt)) hroom₁
  case create => exact fun stmt hcreate _ => redone_create hcreate db
  case checkpoint => exact fun heq => absurd heq hcheck
  case reopen => exact fun heq => absurd heq hreopen

theorem redone_steps {calls : List Call} (h : Steps C db calls db') (hreach : Reachable C db)
    (hroom : Room db') (hcalls : ∀ c ∈ calls, c ≠ .checkpoint ∧ c ≠ .reopen) : Redone C db db' := by
  induction h with
  | nil => exact .refl C _
  | cons step rest ih =>
    rw [List.forall_mem_cons] at hcalls
    have hroom₁ := rest.room hroom
    have hroom₀ := step.room hroom₁
    exact (redone_step step (hreach.good hroom₀) hroom₁ hcalls.1.1 hcalls.1.2).trans
      (ih (.call hreach step) hroom hcalls.2)

/-! ## Crashes -/

/-- What a restart finds after a crash if no page has been written back since `db₀`: as much of
    the log as was kept, the catalog, the old pages, and zeros where pages have been handed out
    since. -/
def crashed (db₀ db : Database) (kept : Nat) : Database where
  session := .reopen (db.mgr.wal.crash kept)
  catalog := db.catalog
  pages := db₀.pages ++ List.replicate (db.pages.length - db₀.pages.length) .zero

theorem operations_append (records more : List (LogRecord LogOp)) :
    operations (records ++ more) = operations records ++ operations more := List.filter_append ..

theorem operations_eq_nil {records : List (LogRecord LogOp)} (h : ∀ r ∈ records, r.type ≠ .op) :
    operations records = [] := by
  apply List.filter_eq_nil_iff.mpr
  intro r hr
  simpa using h r hr

/-- If the transactions that wrote have all committed, everything is replayed. -/
theorem committedOperations_eq {wal : WriteAheadLog LogOp}
    (h : ∀ r ∈ sinceCheckpoint wal.records, r.type = .op →
      r.txnId ∈ committedTxns (sinceCheckpoint wal.records)) :
    committedOperationsSinceCheckpoint wal = operations (sinceCheckpoint wal.records) := by
  apply List.filter_congr
  intro r hr
  apply decide_eq_decide.mpr
  constructor
  · exact fun hop => hop.1
  · exact fun hop => ⟨hop, h r hr hop⟩

/-- Redo is exact: after a run since a checkpoint that has handed out no page and torn none, in
    which every transaction that wrote has committed, recovery from the pages of the checkpoint
    rebuilds the pages page for page. -/
theorem recover_eq {db₀ : Database} {calls : List Call} (h : Steps C db₀ calls db)
    (hreach : Reachable C db₀) (hroom : Room db)
    (hcalls : ∀ c ∈ calls, c ≠ .checkpoint ∧ c ≠ .reopen)
    (hquiet : sinceCheckpoint db₀.mgr.wal.records = [])
    (hlen : db.pages.length = db₀.pages.length) (hwhole : .torn ∉ db.pages) {kept : Nat}
    (hkept : db₀.mgr.wal.records.length ≤ kept)
    (hlost : ∀ r ∈ db.mgr.wal.records.drop kept, r.type ≠ .op)
    (hcommitted : ∀ r ∈ sinceCheckpoint (db.mgr.wal.records.take kept), r.type = .op →
      r.txnId ∈ committedTxns (sinceCheckpoint (db.mgr.wal.records.take kept))) :
    recover C (crashed db₀ db kept) = .ok () { crashed db₀ db kept with pages := db.pages } := by
  obtain ⟨-, records, hwal, hno, hredo⟩ := redone_steps h hreach hroom hcalls
  obtain ⟨-, hcatalog, hrun⟩ := hredo hlen hwhole
  have htake : db.mgr.wal.records.take kept =
      db₀.mgr.wal.records ++ records.take (kept - db₀.mgr.wal.records.length) := by
    rw [hwal, List.take_append, List.take_of_length_le hkept]
  have hdrop : db.mgr.wal.records.drop kept = records.drop (kept - db₀.mgr.wal.records.length) := by
    rw [hwal, List.drop_append, List.drop_of_length_le hkept, List.nil_append]
  have hsince : sinceCheckpoint (db.mgr.wal.records.take kept) =
      records.take (kept - db₀.mgr.wal.records.length) := by
    rw [htake, sinceCheckpoint_append fun r hr => hno r (List.mem_of_mem_take hr), hquiet, List.nil_append]
  -- what is lost of the log holds no operation
  have hops : operations (sinceCheckpoint (db.mgr.wal.records.take kept)) = operations records := by
    rw [hdrop] at hlost
    have hrest := operations_eq_nil hlost
    have hsplit := operations_append (records.take (kept - db₀.mgr.wal.records.length))
      (records.drop (kept - db₀.mgr.wal.records.length))
    rw [List.take_append_drop, hrest, List.append_nil] at hsplit
    rw [hsince, hsplit]
  have hreplayed : committedOperationsSinceCheckpoint (db.mgr.wal.crash kept) = operations records :=
    (committedOperations_eq hcommitted).trans hops
  have hstart : crashed db₀ db kept = ⟨.reopen (db.mgr.wal.crash kept), db₀.catalog, db₀.pages⟩ := by
    simp only [crashed, hcatalog, hlen, Nat.sub_self, List.replicate_zero, List.append_nil]
  rw [hstart]
  have hrecover : recover C ⟨.reopen (db.mgr.wal.crash kept), db₀.catalog, db₀.pages⟩ =
      redo C (operations records) ⟨.reopen (db.mgr.wal.crash kept), db₀.catalog, db₀.pages⟩ := by
    rw [← hreplayed]
    rfl
  rw [hrecover, hrun]

/-- A row that is inserted and lost from the file comes back. -/
theorem recover_oneRow :
    recover .integral (crashed oneTable oneRow 3) =
      .ok () { crashed oneTable oneRow 3 with pages := oneRow.pages } := by
  have hrun : Steps .integral oneTable [.execute insertSeven none] oneRow := .cons (.execute _) .nil
  apply recover_eq hrun reachable_oneTable
  · unfold Room
    decide +kernel
  · simp
  · decide +kernel
  · decide +kernel
  · decide +kernel
  · decide +kernel
  · decide +kernel
  · decide +kernel

end Database
end Minirel
