-- SUMMARY: What calls may still do to the versions and the log records of a finished transaction.
import Minirel.Versions

/-!
# Finished transactions

Snapshots take it that what a committed transaction wrote is final, and recovery that its
operations stand before its COMMIT in the log. Both rest on the callers: a statement does
not look at the state of the transaction it is given.
-/

namespace Minirel
namespace Database

variable {α : Type} {C : Conversions} {tr : Tracked} {db db' db₁ : Database} {v v' : View}
  {table : TableMeta} {txn : Transaction} {t : String} {n : Nat}

/-! ## The log of a statement -/

/-- Records with `P` are appended to the log, and no others. -/
def Appends (P : LogRecord LogOp → Prop) (db db' : Database) : Prop :=
  ∃ rs, db'.mgr.wal.records = db.mgr.wal.records ++ rs ∧ ∀ r ∈ rs, P r

instance (P : LogRecord LogOp → Prop) : IsPreorder Database (Appends P) where
  refl db := ⟨[], by simp, by simp⟩
  trans db db₁ db' := by
    rintro ⟨rs, heq, hrs⟩ ⟨rs', heq', hrs'⟩
    exact ⟨rs ++ rs', by rw [heq', heq, List.append_assoc],
      List.forall_mem_append.mpr ⟨hrs, hrs'⟩⟩

theorem Appends.refl (P : LogRecord LogOp → Prop) (db : Database) : Appends P db db := refl_of _ db

theorem Appends.mono {P P' : LogRecord LogOp → Prop} (h : Appends P db db') (hP : ∀ r, P r → P' r) :
    Appends P' db db' := by
  obtain ⟨rs, heq, hrs⟩ := h
  exact ⟨rs, heq, fun r hr => hP r (hrs r hr)⟩

/-- The computation logs operations of one transaction, and nothing else. -/
abbrev LogsAs (n : Nat) (m : DbM α) : Prop := Follows (Appends fun r => r.type = .op ∧ r.txnId = n) m

theorem logsAs_onPages (m : PagesM α) : LogsAs n (onPages m) := fun _ =>
  wp_onPages.mpr (wp_of (fun _ _ _ => .refl _ _) fun _ _ _ => .refl _ _)

theorem logsAs_lift (x : Except PyError α) : LogsAs n (lift x) := (reads_lift x).follows

theorem logsAs_updateIndexRoot (t i : String) (root : Nat) : LogsAs n (updateIndexRoot t i root) := by
  intro db
  unfold wp updateIndexRoot
  cases db.catalog.updateIndexRoot t i root <;> exact .refl _ _

theorem logsAs_logOperation (txn : Transaction) (op : LogOp) :
    LogsAs txn.txnId (logOperation txn op) := by
  intro db
  unfold wp logOperation
  cases h : db.mgr.wal.logOperation txn.txnId op with
  | ok wal =>
    obtain ⟨-, rfl⟩ := WriteAheadLog.append_ok h
    exact ⟨[_], rfl, by simp⟩
  | error e => exact .refl _ _

theorem logsAs_addVersion (table : TableMeta) (txn : Transaction) (values : List Value)
    (heap : HeapFile) : LogsAs txn.txnId (addVersion C table txn values heap) :=
  .bind (logsAs_lift _) fun _ => .bind (logsAs_lift _) fun _ => .bind (logsAs_onPages _) fun _ =>
    .bind (logsAs_logOperation _ _) fun _ => (Reads.pure _).follows

theorem logsAs_stampVersion (table : TableMeta) (txn : Transaction) (rid : RID) (raw : Tuple) :
    LogsAs txn.txnId (stampVersion table txn rid raw) :=
  .bind (logsAs_lift _) fun _ => .bind (logsAs_onPages _) fun _ => logsAs_logOperation _ _

theorem reads_checkRids (idx : IndexMeta) (key : Value) (txn : Transaction) (excludeRid : Option RID)
    (rids : List RID) : Reads (checkRids C idx key txn excludeRid rids) := fun db =>
  (wp_checkRids idx key txn excludeRid rids db).mono (fun _ _ h => h.1) fun _ _ h => h

theorem reads_checkUniqueConstraint (idx : IndexMeta) (key : Value) (txn : Transaction)
    (excludeRid : Option RID) : Reads (checkUniqueConstraint C idx key txn excludeRid) := by
  unfold checkUniqueConstraint
  split
  · exact .pure _
  · exact .bind (reads_onPages (BPlusTree.Reads.search _ _)) fun _ => reads_checkRids _ _ _ _ _

theorem logsAs_insertIntoIndexes (t : String) (txn : Transaction) (valueMap : Dict Value) (rid : RID)
    (excludeRid : Option RID) (names : List String) :
    LogsAs txn.txnId (insertIntoIndexes C t txn valueMap rid excludeRid names) := by
  induction names with
  | nil => exact (Reads.pure _).follows
  | cons i names ih =>
    refine .bind ?_ fun _ => ih
    exact .bind (reads_getIndex _ _).follows fun _ => .bind (logsAs_lift _) fun _ =>
      .bind (reads_checkUniqueConstraint _ _ _ _).follows fun _ => .bind (logsAs_onPages _) fun _ =>
      .bind (logsAs_updateIndexRoot _ _ _) fun _ => logsAs_logOperation _ _

theorem logsAs_insertRows (table : TableMeta) (txn : Transaction) (rows : List (List Value))
    (heap : HeapFile) : LogsAs txn.txnId (insertRows C table txn rows heap) := by
  induction rows generalizing heap with
  | nil => exact (Reads.pure _).follows
  | cons values rows ih =>
    refine .bind ?_ fun _ => ih _
    exact .bind (logsAs_addVersion _ _ _ _) fun _ => .bind (logsAs_insertIntoIndexes _ _ _ _ _ _)
      fun _ => (Reads.pure _).follows

theorem logsAs_updateRow (table : TableMeta) (assignments : List (String × Expr)) (txn : Transaction)
    (row : Row) (heap : HeapFile) : LogsAs txn.txnId (updateRow C table assignments txn row heap) := by
  refine .bind (logsAs_lift _) fun rid => .bind (logsAs_onPages _) fun found => ?_
  cases found with
  | none => exact (Reads.pure _).follows
  | some raw =>
    exact .bind Reads.get.follows fun _ => .bind (logsAs_lift _) fun _ => .bind (logsAs_lift _) fun _ =>
      .bind (logsAs_lift _) fun _ => .bind (logsAs_lift _) fun _ =>
      .bind (logsAs_stampVersion _ _ _ _) fun _ => .bind (logsAs_addVersion _ _ _ _) fun _ =>
      .bind (logsAs_insertIntoIndexes _ _ _ _ _ _) fun _ => (Reads.pure _).follows

theorem logsAs_updateRows (table : TableMeta) (assignments : List (String × Expr))
    (txn : Transaction) (rows : List Row) (heap : HeapFile) :
    LogsAs txn.txnId (updateRows C table assignments txn rows heap) := by
  induction rows generalizing heap with
  | nil => exact (Reads.pure _).follows
  | cons row rows ih =>
    exact .bind (logsAs_updateRow _ _ _ _ _) fun _ => .bind (ih _) fun _ => (Reads.pure _).follows

theorem logsAs_deleteRow (table : TableMeta) (txn : Transaction) (row : Row) :
    LogsAs txn.txnId (deleteRow table txn row) := by
  refine .bind (logsAs_lift _) fun rid => .bind (logsAs_onPages _) fun found => ?_
  cases found with
  | none => exact (Reads.pure _).follows
  | some raw =>
    exact .bind Reads.get.follows fun _ => .bind (logsAs_lift _) fun _ =>
      .bind (logsAs_stampVersion _ _ _ _) fun _ => (Reads.pure _).follows

theorem logsAs_deleteRows (table : TableMeta) (txn : Transaction) (rows : List Row) :
    LogsAs txn.txnId (deleteRows table txn rows) := by
  induction rows with
  | nil => exact (Reads.pure _).follows
  | cons row rows ih =>
    exact .bind (logsAs_deleteRow _ _ _) fun _ => .bind ih fun _ => (Reads.pure _).follows

/-- A statement on rows logs for its own transaction. -/
theorem logsAs_dispatch {stmt : Statement} (hrows : stmt.OnRows) (txn : Transaction) :
    LogsAs txn.txnId (dispatch C stmt txn) := by
  cases stmt with
  | createTable table columns => exact hrows.elim
  | createIndex name table column unique => exact hrows.elim
  | insert table columns rows =>
    exact .bind (reads_getTable _).follows fun _ => .bind (logsAs_onPages _) fun _ =>
      .bind (logsAs_lift _) fun _ => .bind (logsAs_insertRows _ _ _ _) fun _ => (Reads.pure _).follows
  | update table assignments where_ =>
    exact .bind (reads_getTable _).follows fun _ => .bind (logsAs_onPages _) fun _ =>
      .bind (reads_matching _ _ _).follows fun _ => .bind (logsAs_updateRows _ _ _ _ _) fun _ =>
      (Reads.pure _).follows
  | delete table where_ =>
    exact .bind (reads_getTable _).follows fun _ => .bind (logsAs_onPages _) fun _ =>
      .bind (reads_matching _ _ _).follows fun _ => .bind (logsAs_deleteRows _ _ _) fun _ =>
      (Reads.pure _).follows

/-! ## The log of a move -/

theorem Appends.single {P : LogRecord LogOp → Prop} {r : LogRecord LogOp}
    (h : db'.mgr.wal.records = db.mgr.wal.records ++ [r]) (hr : P r) : Appends P db db' :=
  ⟨[r], h, by simpa using hr⟩

theorem Appends.of_eq {P : LogRecord LogOp → Prop}
    (h : db'.mgr.wal.records = db.mgr.wal.records) : Appends P db db' :=
  ⟨[], by rw [h, List.append_nil], by simp⟩

/-- CREATE TABLE and CREATE INDEX. -/
theorem create_after {stmt : Statement} (hcreate : ¬stmt.OnRows) (hs : Sound C never db v)
    (hroom : Room (after (execute C stmt none) db)) :
    (after (execute C stmt none) db).session = db.session ∧
      ∀ t rid tup, Stored (after (execute C stmt none) db) t rid tup ↔ Stored db t rid tup := by
  refine wp_after (P := fun db' => Room db' →
    db'.session = db.session ∧ ∀ t rid tup, Stored db' t rid tup ↔ Stored db t rid tup) ?_ hroom
  cases stmt with
  | createTable table columns =>
    refine wp.mono (wp_executeCreateTable hs) (fun _ db' h hroom => ?_) fun _ db' h hroom => ?_
    · obtain ⟨hsession, hnone, hcatalog, hs'⟩ := h hroom
      refine ⟨hsession, fun t rid tup => ?_⟩
      rw [hs.stored_iff, hs'.stored_iff, hcatalog]
      by_cases ht : t = table
      · subst ht
        simp [View.newTable, hnone]
      · simp [View.newTable, Catalog.setTable, Dict.get?_set_ne (Ne.symm ht), ht]
    · rw [h hroom]
      simp
  | createIndex name table column unique =>
    have hmade : ∀ {db' : Database} {found idx v'},
        IndexMade C never table name column unique db v found idx db' v' →
        db'.session = db.session ∧ ∀ t rid tup, Stored db' t rid tup ↔ Stored db t rid tup := by
      intro db' found idx v' hmade
      refine ⟨hmade.session, fun t rid tup => ?_⟩
      rw [hs.stored_iff, hmade.sound.stored_iff, hmade.same.tuples]
      by_cases ht : t = table
      · subst ht
        simp only [hmade.get?.1, hmade.found, Option.some.injEq, exists_eq']
      · rw [hmade.catalog, Catalog.setTable, Dict.get?_set_ne (hmade.name ▸ Ne.symm ht)]
    refine wp.mono (wp_executeCreateIndex hs fun _ _ _ _ _ h => h.elim) (fun _ db' h hroom => ?_)
      fun _ db' h hroom => ?_
    · obtain ⟨_, _, _, h, -⟩ := h hroom
      exact hmade h
    · obtain rfl | ⟨_, _, _, h, -⟩ := h hroom
      · exact ⟨rfl, fun _ _ _ => .rfl⟩
      · exact hmade h
  | insert table columns rows => exact absurd trivial hcreate
  | update table assignments where_ => exact absurd trivial hcreate
  | delete table where_ => exact absurd trivial hcreate

/-- What a move logs: a BEGIN under the next id, and the operations of a statement under the id
    of its transaction. -/
theorem Move.appends {ok : Condition} (h : Move C ok db db') (hg : Good C never db)
    (hroom : Room db') :
    Appends (fun r => (r.type = .begin → r.txnId = db.mgr.nextTxnId) ∧
      (r.type = .op → ∃ stmt txn, ok db stmt (some txn) ∧ r.txnId = txn.txnId)) db db' := by
  cases h with
  | session c =>
    cases c with
    | begin =>
      obtain ⟨-, heq⟩ | ⟨-, heq⟩ := db.session.step_begin_cases
      · exact .single (by rw [heq]; rfl) (by simp [mgr])
      · exact .of_eq (by rw [heq]; rfl)
    | commit t =>
      obtain heq | ⟨txn, -, -, heq⟩ := db.session.step_commit_cases t
      · exact .of_eq (by rw [heq])
      · exact .single (by rw [heq]; rfl) (by simp)
    | abort t =>
      obtain heq | ⟨txn, -, -, heq⟩ := db.session.step_abort_cases t
      · exact .of_eq (by rw [heq])
      · exact .single (by rw [heq]; rfl) (by simp)
  | rows stmt hrows ht hok =>
    refine (wp_after (logsAs_dispatch hrows _ db)).mono fun r hr => ?_
    exact ⟨fun hbegin => by simp [hr.1] at hbegin, fun _ => ⟨stmt, _, hok, hr.2⟩⟩
  | create stmt hcreate hok =>
    obtain ⟨-, v, hs⟩ := hg
    exact .of_eq (by rw [mgr, (create_after hcreate hs hroom).1, mgr])
  | checkpoint =>
    unfold after Database.checkpoint
    cases hc : db.mgr.checkpoint with
    | ok mgr =>
      obtain ⟨-, rfl⟩ := TransactionManager.checkpoint_ok hc
      exact .single rfl (by simp)
    | error e => exact .of_eq rfl
  | reopen => exact .of_eq rfl

/-! ## Transactions of the past -/

/-- Nothing goes on in the transaction any more. -/
structure Past (db : Database) (t : Nat) (committed : Prop) : Prop where
  lt : t < db.mgr.nextTxnId
  idle : t ∉ db.mgr.activeXids
  logged : ∃ r ∈ db.mgr.wal.records, r.txnId = t
  kept : committed → t ∉ db.mgr.abortedXids ∧ t ∉ uncommittedTxnIdsSinceCheckpoint db.mgr.wal

/-- What the log holds of a transaction stays there. -/
theorem Appends.logged {P : LogRecord LogOp → Prop} {n : Nat} (h : Appends P db db')
    (hlogged : ∃ r ∈ db.mgr.wal.records, r.txnId = n) : ∃ r ∈ db'.mgr.wal.records, r.txnId = n := by
  obtain ⟨rs, heq, -⟩ := h
  obtain ⟨r, hr, hid⟩ := hlogged
  exact ⟨r, heq ▸ List.mem_append_left _ hr, hid⟩

theorem Appends.uncommitted {P : LogRecord LogOp → Prop} {n : Nat} (h : Appends P db db')
    (hP : ∀ r, P r → r.type = .begin → r.txnId ≠ n)
    (hn : n ∉ uncommittedTxnIdsSinceCheckpoint db.mgr.wal) :
    n ∉ uncommittedTxnIdsSinceCheckpoint db'.mgr.wal := by
  obtain ⟨rs, heq, hrs⟩ := h
  have happend : n ∉ uncommittedTxnIdsSinceCheckpoint
      ⟨db.mgr.wal.records ++ rs, db'.mgr.wal.forced⟩ :=
    not_mem_uncommittedTxnIds_append (n := db.mgr.wal.forced)
      (fun r hr => not_and.mpr (hP r (hrs r hr))) hn
  rw [← heq] at happend
  exact happend

theorem Past.move {ok : Condition} {n : Nat} {committed : Prop} (hp : Past db n committed)
    (h : Move C ok db db') (hg : Good C never db) (hroom : Room db') : Past db' n committed := by
  have hlog := h.appends hg hroom
  have hlogged := hlog.logged hp.logged
  have hcommitted : committed → n ∉ uncommittedTxnIdsSinceCheckpoint db'.mgr.wal := fun hc =>
    hlog.uncommitted (fun r hr hbegin => hr.1 hbegin ▸ hp.lt.ne') (hp.kept hc).2
  have hsame : db'.mgr.nextTxnId = db.mgr.nextTxnId → db'.mgr.activeXids = db.mgr.activeXids →
      db'.mgr.abortedXids = db.mgr.abortedXids → Past db' n committed := by
    intro hnext hactive haborted
    exact ⟨hnext ▸ hp.lt, hactive ▸ hp.idle, hlogged, fun hc =>
      ⟨haborted ▸ (hp.kept hc).1, hcommitted hc⟩⟩
  obtain ⟨hi, v, hs⟩ := hg
  cases h with
  | session c =>
    cases db.session.step_effect c with
    | begun hlt next active aborted txns =>
      refine ⟨next ▸ Nat.lt_succ_of_lt hp.lt, ?_, hlogged, fun hc => ⟨?_, hcommitted hc⟩⟩
      · exact active ▸ Finset.mem_insert.not.mpr (not_or.mpr ⟨hp.lt.ne, hp.idle⟩)
      · exact aborted ▸ (hp.kept hc).1
    | refused next active aborted txns =>
      refine ⟨next ▸ Nat.lt_succ_of_lt hp.lt, ?_, hlogged, fun hc => ⟨?_, hcommitted hc⟩⟩
      · exact active ▸ Finset.mem_insert.not.mpr (not_or.mpr ⟨hp.lt.ne, hp.idle⟩)
      · exact aborted ▸ (hp.kept hc).1
    | committed txn hstate next active aborted txns hmem =>
      refine ⟨next ▸ hp.lt, fun h => ?_, hlogged, fun hc => ⟨?_, hcommitted hc⟩⟩
      · exact hp.idle (Finset.mem_of_mem_erase (active ▸ h))
      · exact aborted ▸ (hp.kept hc).1
    | aborted txn hstate next active aborted txns hmem =>
      obtain ⟨t', ht'⟩ := hmem
      obtain rfl := (hi.handle ht').1
      have hne : n ≠ txn.txnId := by
        rintro rfl
        exact hp.idle ((hi.active_iff ht').mp hstate)
      refine ⟨next ▸ hp.lt, fun h => ?_, hlogged, fun hc => ⟨?_, hcommitted hc⟩⟩
      · exact hp.idle (Finset.mem_of_mem_erase (active ▸ h))
      · exact aborted ▸ Finset.mem_insert.not.mpr (not_or.mpr ⟨hne, (hp.kept hc).1⟩)
    | unchanged next active aborted txns => exact hsame next active aborted
  | rows stmt hrows ht hok =>
    have hwithin := (Good.rows ⟨hi, v, hs⟩ hrows ht (stmtFaithful_never C _ _ _) hroom).2
    exact hsame hwithin.nextTxnId hwithin.activeXids hwithin.abortedXids
  | create stmt hcreate hok =>
    have hsession := (create_after hcreate hs hroom).1
    exact hsame (by rw [mgr, hsession, mgr]) (by rw [mgr, hsession, mgr]) (by rw [mgr, hsession, mgr])
  | checkpoint =>
    obtain ⟨wal, heq⟩ := checkpoint_after db
    rw [heq] at hsame ⊢
    exact hsame rfl rfl rfl
  | reopen =>
    obtain ⟨r, hr, hid⟩ := hp.logged
    exact ⟨hid ▸ lt_nextTxnIdAfterRecovery hr, Finset.notMem_empty _, hlogged, fun hc =>
      ⟨(hp.kept hc).2, hcommitted hc⟩⟩

/-- What the log holds of the transactions that have a handle. -/
def Recorded (db : Database) : Prop :=
  ∀ t txn, db.session.txns t = some txn → (∃ r ∈ db.mgr.wal.records, r.txnId = t) ∧
    (txn.state = .committed → t ∉ uncommittedTxnIdsSinceCheckpoint db.mgr.wal)

theorem Recorded.past (h : Recorded db) (hi : db.session.Inv) {n : Nat}
    (ht : db.session.txns n = some txn) (hstate : txn.state ≠ .active) :
    Past db n (txn.state = .committed) := by
  obtain ⟨hlogged, hcommitted⟩ := h n txn ht
  refine ⟨(hi.handle ht).2.2.1, fun h => hstate ((hi.active_iff ht).mpr h), hlogged, fun hc => ?_⟩
  refine ⟨fun h => ?_, hcommitted hc⟩
  have haborted := (hi.aborted_iff ht).mpr h
  rw [hc] at haborted
  cases haborted

theorem Recorded.move {ok : Condition} (hr : Recorded db) (h : Move C ok db db')
    (hg : Good C never db) (hroom : Room db') : Recorded db' := by
  have hlog := h.appends hg hroom
  -- the handles that were there before
  have hold : ∀ {n txn}, db.session.txns n = some txn →
      (∃ r ∈ db'.mgr.wal.records, r.txnId = n) ∧
        (txn.state = .committed → n ∉ uncommittedTxnIdsSinceCheckpoint db'.mgr.wal) := by
    intro n txn hn
    obtain ⟨hlogged, hcommitted⟩ := hr n txn hn
    refine ⟨hlog.logged hlogged, fun hc => hlog.uncommitted (fun r hr hbegin => ?_) (hcommitted hc)⟩
    exact hr.1 hbegin ▸ (hg.inv.handle hn).2.2.1.ne'
  have hkeep : db'.session.txns = db.session.txns → Recorded db' := fun htxns n txn hn =>
    hold (htxns ▸ hn)
  cases h with
  | session c =>
    intro n txn hn
    dsimp only at hn
    -- a call gives out or ends one handle, and logs a record for it
    have hone : ∀ {r : LogRecord LogOp} {x : Transaction} {forced : Nat},
        (db.session.step c).mgr.wal = ⟨db.mgr.wal.records ++ [r], forced⟩ →
        (db.session.step c).txns = Function.update db.session.txns r.txnId (some x) →
        (x.state = .committed → r.type = .commit) →
        (∃ r ∈ (db.session.step c).mgr.wal.records, r.txnId = n) ∧ (txn.state = .committed →
          n ∉ uncommittedTxnIdsSinceCheckpoint (db.session.step c).mgr.wal) := by
      intro r x forced hwal htxns hx
      by_cases hne : n = r.txnId
      · subst hne
        rw [htxns, Function.update_self] at hn
        cases hn
        rw [hwal]
        refine ⟨⟨r, List.mem_append_right _ (List.mem_singleton_self r), rfl⟩, fun hc hmem => ?_⟩
        exact (mem_uncommittedTxnIds_snoc (n := forced) hmem).2 ⟨hx hc, rfl⟩
      · rw [htxns, Function.update_of_ne hne] at hn
        exact hold hn
    cases c with
    | begin =>
      obtain ⟨-, heq⟩ | ⟨-, heq⟩ := db.session.step_begin_cases
      · exact hone (by rw [heq]; rfl) (by rw [heq]) fun hc => by cases hc
      · rw [heq] at hn
        exact hold hn
    | commit t =>
      obtain heq | ⟨x, -, -, heq⟩ := db.session.step_commit_cases t
      · rw [heq] at hn
        exact hold hn
      · exact hone (by rw [heq]; rfl) (by rw [heq]) fun _ => rfl
    | abort t =>
      obtain heq | ⟨x, -, -, heq⟩ := db.session.step_abort_cases t
      · rw [heq] at hn
        exact hold hn
      · exact hone (by rw [heq]; rfl) (by rw [heq]) fun hc => by cases hc
  | rows stmt hrows ht hok =>
    exact hkeep (hg.rows hrows ht (stmtFaithful_never C _ _ _) hroom).2.txns
  | create stmt hcreate hok =>
    obtain ⟨-, v, hs⟩ := hg
    exact hkeep (by rw [(create_after hcreate hs hroom).1])
  | checkpoint =>
    obtain ⟨wal, heq⟩ := checkpoint_after db
    exact hkeep (by rw [heq])
  | reopen =>
    intro n txn hn
    cases hn

theorem Moves.recorded {ok : Condition} (h : Moves C ok db db') (hr : Recorded db)
    (hg : Good C never db) (hroom : Room db') : Recorded db' := by
  induction h with
  | refl => exact hr
  | tail hmoves hmove ih =>
    have hroom₁ := hmove.room hroom
    exact (ih hroom₁).move hmove (Moves.good hmoves (fun _ _ _ _ => fits_never C _ _ _) hg hroom₁) hroom

theorem Reachable.recorded (h : Reachable C db) (hroom : Room db) : Recorded db := by
  induction h with
  | fresh =>
    intro n txn hn
    cases hn
  | call h step ih =>
    have hroom₁ := step.room hroom
    have hg := h.good hroom₁
    exact (step.moves hg (callOk_anyStatement _ _) hroom).recorded (ih hroom₁) hg hroom

/-! ## The work of a transaction -/

/-- The versions a transaction has created: the table, the RID and the payload. -/
def createdBy (db : Database) (n : Nat) : Set (String × RID × List Cell) :=
  { x | ∃ tup, Stored db x.1 x.2.1 tup ∧ tup.xmin = n ∧ tup.payload = x.2.2 }

/-- The versions that bear the stamp of a transaction: the table, the RID, the creator and the
    payload. -/
def stampedBy (db : Database) (n : Nat) : Set (String × RID × Nat × List Cell) :=
  { x | ∃ tup, Stored db x.1 x.2.1 tup ∧ tup.xmin = x.2.2.1 ∧ tup.xmax = n ∧ tup.payload = x.2.2.2 }

theorem Reworked.createdBy_eq (h : Reworked txn db db') {n : Nat} (hne : txn.txnId ≠ n) :
    createdBy db' n = createdBy db n := by
  ext ⟨t, rid, payload⟩
  constructor
  · rintro ⟨tup, hstored, hxmin, hpayload⟩
    obtain ⟨hown, -⟩ | ⟨old, hold, hsucc⟩ := h.origin _ _ _ hstored
    · exact absurd (hown.symm.trans hxmin) hne
    · exact ⟨old, hold, hsucc.xmin.symm.trans hxmin, hsucc.payload.symm.trans hpayload⟩
  · rintro ⟨tup, hstored, hxmin, hpayload⟩
    obtain ⟨new, hnew, hsucc⟩ := h.kept _ _ _ hstored
    exact ⟨new, hnew, hsucc.xmin.trans hxmin, hsucc.payload.trans hpayload⟩

theorem Reworked.stampedBy_subset (h : Reworked txn db db') {n : Nat} (hne : txn.txnId ≠ n)
    (hinf : n ≠ infinityTxn) : stampedBy db' n ⊆ stampedBy db n := by
  rintro ⟨t, rid, xmin, payload⟩ ⟨tup, hstored, hxmin, hxmax, hpayload⟩
  obtain ⟨-, hown | hown⟩ | ⟨old, hold, hsucc⟩ := h.origin _ _ _ hstored
  · exact absurd (hxmax.symm.trans hown) hinf
  · exact absurd (hown.symm.trans hxmax) hne
  · obtain heq | ⟨heq, -⟩ := hsucc.xmax
    · exact ⟨old, hold, hsucc.xmin.symm.trans hxmin, heq.symm.trans hxmax,
        hsucc.payload.symm.trans hpayload⟩
    · exact absurd (heq.symm.trans hxmax) hne

/-- A stamp of a transaction that is not aborted is never written over by another. -/
theorem Reworked.subset_stampedBy (h : Reworked txn db db') {n : Nat} (hne : txn.txnId ≠ n)
    (hinf : n ≠ infinityTxn) (haborted : n ∉ db.mgr.abortedXids) :
    stampedBy db n ⊆ stampedBy db' n := by
  rintro ⟨t, rid, xmin, payload⟩ ⟨tup, hstored, hxmin, hxmax, hpayload⟩
  obtain ⟨new, hnew, hsucc⟩ := h.kept _ _ _ hstored
  obtain heq | ⟨-, hok⟩ := hsucc.xmax
  · exact ⟨new, hnew, hsucc.xmin.trans hxmin, heq.trans hxmax, hsucc.payload.trans hpayload⟩
  · rw [hxmax, TransactionManager.checkWriteConflict_ok_iff] at hok
    obtain h | h | h := hok
    · exact absurd h hinf
    · exact absurd h.symm hne
    · exact absurd h haborted

/-- What is left of the work of a transaction of the past. -/
structure Kept (n : Nat) (committed : Prop) (db db' : Database) : Prop where
  created : createdBy db' n = createdBy db n
  stamped : n ≠ infinityTxn → stampedBy db' n ⊆ stampedBy db n
  committed : n ≠ infinityTxn → committed → stampedBy db' n = stampedBy db n
  logged : Appends (fun r => ¬(r.type = .op ∧ r.txnId = n)) db db'

theorem Kept.refl (n : Nat) (committed : Prop) (db : Database) : Kept n committed db db :=
  ⟨rfl, fun _ => .rfl, fun _ _ => rfl, .refl _ _⟩

theorem Kept.trans {n : Nat} {committed : Prop} (h : Kept n committed db db₁)
    (h' : Kept n committed db₁ db') : Kept n committed db db' where
  created := h'.created.trans h.created
  stamped hinf := (h'.stamped hinf).trans (h.stamped hinf)
  committed hinf hc := (h'.committed hinf hc).trans (h.committed hinf hc)
  logged := trans_of _ h.logged h'.logged

/-- The condition that a statement is not run in a transaction. -/
def otherThan (n : Nat) : Condition := fun _ _ txn => ∀ x, txn = some x → x.txnId ≠ n

theorem Move.kept {n : Nat} {committed : Prop} (h : Move C (otherThan n) db db')
    (hg : Good C never db) (hroom : Room db') (hp : Past db n committed) :
    Kept n committed db db' := by
  have hlog : Appends (fun r => ¬(r.type = .op ∧ r.txnId = n)) db db' :=
    (h.appends hg hroom).mono fun r hr ⟨hop, hid⟩ => by
      obtain ⟨stmt, txn, hok, heq⟩ := hr.2 hop
      exact hok txn rfl (heq.symm.trans hid)
  have hsame : (∀ t rid tup, Stored db' t rid tup ↔ Stored db t rid tup) →
      Kept n committed db db' := by
    intro hstored
    have hcreated : createdBy db' n = createdBy db n := by
      simp only [createdBy, hstored]
    have hstamped : stampedBy db' n = stampedBy db n := by
      simp only [stampedBy, hstored]
    exact ⟨hcreated, fun _ => hstamped.subset, fun _ _ => hstamped, hlog⟩
  obtain ⟨hi, v, hs⟩ := hg
  have hview : ∀ {session}, db' = { db with session } → Kept n committed db db' := by
    rintro session rfl
    have hs' : Sound C never { db with session } v := hs.congr rfl rfl
    exact hsame fun t rid tup => hs'.stored_iff.trans hs.stored_iff.symm
  cases h with
  | session c => exact hview rfl
  | rows stmt hrows ht hok =>
    obtain ⟨hid, -, -, hlt⟩ := hi.handle ht
    have hreworked :=
      (dispatch_effect hrows hs (hid ▸ hlt) (stmtFaithful_never C _ _ _) hroom).reworked hs
    have hne := hok _ rfl
    exact ⟨hreworked.createdBy_eq hne, fun hinf => hreworked.stampedBy_subset hne hinf,
      fun hinf hc => (hreworked.stampedBy_subset hne hinf).antisymm
        (hreworked.subset_stampedBy hne hinf (hp.kept hc).1), hlog⟩
  | create stmt hcreate hok => exact hsame (create_after hcreate hs hroom).2
  | checkpoint =>
    obtain ⟨wal, heq⟩ := checkpoint_after db
    exact hview heq
  | reopen => exact hview rfl

theorem Moves.kept {n : Nat} {committed : Prop} (h : Moves C (otherThan n) db db')
    (hg : Good C never db) (hroom : Room db') (hp : Past db n committed) :
    Kept n committed db db' ∧ Past db' n committed := by
  induction h with
  | refl => exact ⟨.refl n committed _, hp⟩
  | tail hmoves hmove ih =>
    have hroom₁ := hmove.room hroom
    obtain ⟨hkept, hp₁⟩ := ih hroom₁
    have hg₁ := Moves.good hmoves (fun _ _ _ _ => fits_never C _ _ _) hg hroom₁
    exact ⟨hkept.trans (hmove.kept hg₁ hroom hp₁), hp₁.move hmove hg₁ hroom⟩

/-- A call that is not passed a transaction of the past runs no statement in it. -/
theorem callOk_otherThan {n : Nat} {committed : Prop} {c : Call} (hi : db.session.Inv)
    (hp : Past db n committed) (hc : ∀ stmt, c ≠ .execute stmt (some n)) :
    CallOk (otherThan n) db c := by
  have hbegin : ∀ txn db₁, Database.begin db = .ok txn db₁ → ∀ x, some txn = some x → x.txnId ≠ n := by
    rintro txn db₁ hb x hx
    cases hx
    obtain ⟨-, rfl, -, -⟩ := begin_eq_ok hb
    exact hp.lt.ne'
  have hfound : ∀ t, t ≠ n → ∀ txn, db.session.txns t = some txn → ∀ x, some txn = some x →
      x.txnId ≠ n := by
    rintro t hne txn ht x hx
    cases hx
    exact (hi.handle ht).1 ▸ hne
  cases c with
  | execute stmt txn =>
    cases txn with
    | none => cases stmt <;> first | exact hbegin | exact nofun
    | some t =>
      have hne : t ≠ n := by
        rintro rfl
        exact hc stmt rfl
      cases stmt <;> first | exact hfound t hne | exact nofun
  | begin => trivial
  | commit t => trivial
  | abort t => trivial
  | select txn raises => trivial
  | checkpoint => trivial
  | reopen => trivial

theorem Steps.room {calls : List Call} (h : Steps C db calls db') (hroom : Room db') : Room db := by
  induction h with
  | nil => exact hroom
  | cons step _ ih => exact step.room (ih hroom)

theorem Steps.kept {n : Nat} {committed : Prop} {calls : List Call} (h : Steps C db calls db')
    (hg : Good C never db) (hroom : Room db') (hp : Past db n committed)
    (hcalls : ∀ stmt, Call.execute stmt (some n) ∉ calls) : Kept n committed db db' := by
  induction h with
  | nil => exact .refl n committed _
  | cons step rest ih =>
    have hroom₁ := rest.room hroom
    have hok := callOk_otherThan hg.inv hp fun stmt heq => hcalls stmt (heq ▸ List.mem_cons_self)
    have hmoves := step.moves hg hok hroom₁
    obtain ⟨hkept, hp₁⟩ := hmoves.kept hg hroom₁ hp
    have hg₁ := hmoves.good (fun _ _ _ _ => fits_never C _ _ _) hg hroom₁
    exact hkept.trans (ih hg₁ hroom hp₁ fun stmt hmem => hcalls stmt (List.mem_cons_of_mem _ hmem))

/-- Calls that are not passed a finished transaction neither log operations of it nor change
    what it has created. What it has stamped stays stamped if it is committed; if it is aborted,
    another transaction may write over the stamp. -/
theorem kept_of_finished {calls : List Call} (h : Reachable C db)
    (ht : db.session.txns n = some txn) (hstate : txn.state ≠ .active)
    (hsteps : Steps C db calls db') (hcalls : ∀ stmt, Call.execute stmt (some n) ∉ calls)
    (hroom : Room db') : Kept n (txn.state = .committed) db db' := by
  have hroom₁ := hsteps.room hroom
  have hg := h.good hroom₁
  exact hsteps.kept hg hroom ((h.recorded hroom₁).past hg.inv ht hstate) hcalls

/-! ## A statement in a finished transaction -/

/-- A database with a table of one column. -/
def oneTable : Database := after (execute .integral (.createTable "t" [⟨"a", .int⟩]) none) fresh

/-- INSERT INTO t VALUES (7) -/
def insertSeven : Statement := .insert "t" none [[.literal (.int 7)]]

/-- Transaction 1 has committed, and has written nothing. -/
def committedIdle : Database := after (commit oneTable.session.newTxn) (after begin oneTable)

/-- Transaction 1 has inserted a row. -/
def oneRow : Database := after (execute .integral insertSeven none) oneTable

/-- Transaction 2 has deleted the row, and has aborted. -/
def abortedDelete : Database :=
  after (abort oneRow.session.newTxn)
    (after (execute .integral (.delete "t" none) (some oneRow.session.newTxn)) (after begin oneRow))

theorem reachable_oneTable : Reachable .integral oneTable := .call .fresh (.execute _)

theorem reachable_committedIdle : Reachable .integral committedIdle := by
  have hfound : (after begin oneTable).session.txns 1 = some oneTable.session.newTxn := by
    decide +kernel
  exact .call (.call reachable_oneTable .begin) (.commit hfound)

theorem reachable_abortedDelete : Reachable .integral abortedDelete := by
  have hbegun : Reachable .integral (after begin oneRow) :=
    .call (.call reachable_oneTable (.execute insertSeven)) .begin
  have hfound : (after begin oneRow).session.txns 2 = some oneRow.session.newTxn := by
    decide +kernel
  have hdeleted := hbegun.call (.executeIn (.delete "t" none) hfound)
  have hfound' : (after (execute .integral (.delete "t" none) (some oneRow.session.newTxn))
      (after begin oneRow)).session.txns 2 = some oneRow.session.newTxn := by decide +kernel
  exact hdeleted.call (.abort hfound')

theorem found_committedIdle :
    committedIdle.session.txns 1 = some { oneTable.session.newTxn with state := .committed } := by
  decide +kernel

theorem kept_of_finished_insert :
    Kept 1 (TxnState.committed = TxnState.committed) committedIdle
      (after (execute .integral insertSeven none) committedIdle) := by
  have hroom : (after (execute .integral insertSeven none) committedIdle).pages.length <
      invalidPageId := by decide +kernel
  exact kept_of_finished reachable_committedIdle found_committedIdle (by decide)
    (.cons (.execute insertSeven) .nil) (by simp) hroom

/-- An INSERT in a committed transaction writes as in any other; the stamp of an aborted one is
    written over by another transaction. -/
theorem finished_writes :
    (∃ txn db', Reachable .integral committedIdle ∧
      committedIdle.session.txns 1 = some txn ∧ txn.state = .committed ∧
      Step .integral committedIdle (.execute insertSeven (some 1)) db' ∧
      createdBy db' 1 ≠ createdBy committedIdle 1 ∧
      ∃ r ∈ db'.mgr.wal.records.drop committedIdle.mgr.wal.records.length,
        r.type = .op ∧ r.txnId = 1) ∧
    ∃ txn db', Reachable .integral abortedDelete ∧
      abortedDelete.session.txns 2 = some txn ∧ txn.state = .aborted ∧
      Step .integral abortedDelete (.execute (.delete "t" none) none) db' ∧
      stampedBy db' 2 ≠ stampedBy abortedDelete 2 := by
  constructor
  · refine ⟨_, _, reachable_committedIdle, found_committedIdle, rfl,
      .executeIn insertSeven found_committedIdle, fun heq => ?_, by decide +kernel⟩
    have hmem : ("t", (⟨0, 0⟩ : RID), [Cell.int 7 (by decide)]) ∈ createdBy committedIdle 1 := by
      rw [← heq]
      exact ⟨⟨1, infinityTxn, _, by decide, by decide⟩, by decide +kernel, rfl, rfl⟩
    obtain ⟨tup, hstored, -⟩ := hmem
    have hnone : contents "t" committedIdle = [] := by decide +kernel
    rw [stored_iff_mem_contents, hnone] at hstored
    cases hstored
  · have hfound : abortedDelete.session.txns 2 =
        some { oneRow.session.newTxn with state := .aborted } := by decide +kernel
    refine ⟨_, _, reachable_abortedDelete, hfound, rfl, .execute (.delete "t" none), fun heq => ?_⟩
    have hmem : ("t", (⟨0, 0⟩ : RID), 1, [Cell.int 7 (by decide)]) ∈ stampedBy abortedDelete 2 :=
      ⟨⟨1, 2, _, by decide, by decide⟩, by decide +kernel, rfl, rfl, rfl⟩
    rw [← heq] at hmem
    obtain ⟨tup, hstored, -, hxmax, -⟩ := hmem
    have hthree : ∀ x ∈ contents "t" (after (execute .integral (.delete "t" none) none) abortedDelete),
        x.2.xmax = 3 := by decide +kernel
    rw [hthree _ (stored_iff_mem_contents.mp hstored)] at hxmax
    cases hxmax

end Database
end Minirel
