-- SUMMARY: The calls on a database, the states they lead to, and what holds in all of them.
import Minirel.Execute
import Minirel.Recovery
import Mathlib.Logic.Relation

/-!
# Runs

A run is a sequence of calls on one database, by any number of callers in any order, and
perhaps an orderly close and reopening in between. A SELECT changes nothing but the
transactions: whether it raises is left open.

Every call comes down to a few moves: the transaction calls, and the bodies of statements
in a transaction that is found among the handles.
-/

namespace Minirel

/-- A statement that writes rows in a transaction. -/
def Statement.OnRows : Statement → Prop
  | .insert .. | .update .. | .delete .. => True
  | .createTable .. | .createIndex .. => False

namespace Database

variable {α : Type} {C : Conversions} {tr : Tracked} {db db' : Database} {v : View}

/-! ## Calls -/

/-- The database after a call, whether it has returned or raised. -/
def after (m : DbM α) (db : Database) : Database :=
  match m db with
  | .ok _ db' => db'
  | .error _ db' => db'

/-- `checkpoint`. The pages it flushes stay as they are. -/
def checkpoint : DbM Unit := fun db =>
  match db.mgr.checkpoint with
  | .ok mgr => .ok () { db with session := { db.session with mgr } }
  | .error e => .error e db

/-- The body of a SELECT, as far as the database goes. -/
def query (raises : Bool) (_ : Transaction) : DbM Unit :=
  if raises then throw .typeError else return ()

/-- An orderly `close`, and `Database` once more on the same files. -/
def reopened (db : Database) : Database := { db with session := .reopen db.mgr.wal }

/-- A call. Transactions are named by their ids. -/
inductive Call where
  | begin
  | commit (t : Nat)
  | abort (t : Nat)
  | execute (stmt : Statement) (txn : Option Nat)
  | select (txn : Option Nat) (raises : Bool)
  | checkpoint
  | reopen

inductive Step (C : Conversions) : Database → Call → Database → Prop where
  | begin {db : Database} : Step C db .begin (after begin db)
  | commit {db : Database} {t : Nat} {txn : Transaction} (ht : db.session.txns t = some txn) :
      Step C db (.commit t) (after (commit txn) db)
  | abort {db : Database} {t : Nat} {txn : Transaction} (ht : db.session.txns t = some txn) :
      Step C db (.abort t) (after (abort txn) db)
  | execute {db : Database} (stmt : Statement) :
      Step C db (.execute stmt none) (after (execute C stmt none) db)
  | executeIn {db : Database} (stmt : Statement) {t : Nat} {txn : Transaction}
      (ht : db.session.txns t = some txn) :
      Step C db (.execute stmt (some t)) (after (execute C stmt (some txn)) db)
  | select {db : Database} (raises : Bool) :
      Step C db (.select none raises) (after (autocommit (query raises)) db)
  | selectIn {db : Database} {t : Nat} {raises : Bool} : Step C db (.select (some t) raises) db
  | checkpoint {db : Database} : Step C db .checkpoint (after checkpoint db)
  /-- A database is reopened with nothing to replay. -/
  | reopen {db : Database} (none : committedOperationsSinceCheckpoint db.mgr.wal = []) :
      Step C db .reopen db.reopened

/-- Calls one after the other. -/
inductive Steps (C : Conversions) : Database → List Call → Database → Prop where
  | nil {db : Database} : Steps C db [] db
  | cons {db db₁ db₂ : Database} {c : Call} {calls : List Call} (step : Step C db c db₁)
      (rest : Steps C db₁ calls db₂) : Steps C db (c :: calls) db₂

/-- The states that calls lead to from a new database. -/
inductive Reachable (C : Conversions) : Database → Prop where
  | fresh : Reachable C fresh
  | call {db db' : Database} {c : Call} (h : Reachable C db) (step : Step C db c db') : Reachable C db'

theorem after_ok {m : DbM α} {a : α} (h : m db = .ok a db') : after m db = db' := by
  simp only [after, h]

theorem after_error {m : DbM α} {e : PyError} (h : m db = .error e db') : after m db = db' := by
  simp only [after, h]

/-- What holds at both ends holds afterwards. -/
theorem wp_after {P : Database → Prop} {m : DbM α} (h : wp m (fun _ => P) (fun _ => P) db) :
    P (after m db) := by
  unfold after
  unfold wp at h
  split <;> simp_all

theorem after_onManager
    (call : TransactionManager LogOp → Except PyError Transaction × TransactionManager LogOp)
    (db : Database) :
    after (onManager call) db = { db with session := db.session.settle (call db.mgr) } := by
  unfold after onManager
  dsimp only
  cases (call db.mgr).1 <;> rfl

/-! ## Moves -/

/-- What may be asked of a statement and the state it runs in. -/
abbrev Condition := Database → Statement → Option Transaction → Prop

/-- What calls are made of. -/
inductive Move (C : Conversions) (ok : Condition) : Database → Database → Prop where
  | session {db : Database} (c : TxnCall) : Move C ok db { db with session := db.session.step c }
  | rows {db : Database} (stmt : Statement) {t : Nat} {txn : Transaction} (hrows : stmt.OnRows)
      (ht : db.session.txns t = some txn) (hok : ok db stmt (some txn)) :
      Move C ok db (after (dispatch C stmt txn) db)
  | create {db : Database} (stmt : Statement) (hcreate : ¬stmt.OnRows) (hok : ok db stmt none) :
      Move C ok db (after (execute C stmt none) db)
  | checkpoint {db : Database} : Move C ok db (after checkpoint db)
  | reopen {db : Database} : Move C ok db db.reopened

/-! ## The pages that are handed out -/

theorem sheds_executeInsert (t : String) (columns : Option (List String)) (rows : List (List Expr))
    (txn : Transaction) : Sheds Room (executeInsert C t columns rows txn) :=
  .bind (reads_getTable _).sheds fun _ =>
    .bind (reads_onPages (HeapFile.reads_openAt _)).sheds fun _ => .bind (sheds_lift _) fun _ =>
    .bind (sheds_insertRows _ _ _ _) fun _ => (Reads.pure _).sheds

theorem sheds_executeUpdate (t : String) (assignments : List (String × Expr)) (where_ : Option Expr)
    (txn : Transaction) : Sheds Room (executeUpdate C t assignments where_ txn) :=
  .bind (reads_getTable _).sheds fun _ =>
    .bind (reads_onPages (HeapFile.reads_openAt _)).sheds fun _ => .bind (sheds_matching _ _ _) fun _ =>
    .bind (sheds_updateRows _ _ _ _ _) fun _ => (Reads.pure _).sheds

theorem sheds_executeDelete (t : String) (where_ : Option Expr) (txn : Transaction) :
    Sheds Room (executeDelete C t where_ txn) :=
  .bind (reads_getTable _).sheds fun _ =>
    .bind (reads_onPages (HeapFile.reads_openAt _)).sheds fun _ => .bind (sheds_matching _ _ _) fun _ =>
    .bind (sheds_deleteRows _ _ _) fun _ => (Reads.pure _).sheds

theorem execute_some (stmt : Statement) (txn : Transaction) :
    execute C stmt (some txn) = dispatch C stmt txn := by
  cases stmt <;> rfl

theorem sheds_dispatch (stmt : Statement) (txn : Transaction) : Sheds Room (dispatch C stmt txn) := by
  cases stmt with
  | createTable table columns => exact sheds_executeCreateTable _ _
  | createIndex name table column unique => exact sheds_executeCreateIndex _ _ _ _
  | insert table columns rows => exact sheds_executeInsert _ _ _ _
  | update table assignments where_ => exact sheds_executeUpdate _ _ _ _
  | delete table where_ => exact sheds_executeDelete _ _ _

theorem room_of_after {m : DbM α} (h : Sheds Room m) (hroom : Room (after m db)) : Room db :=
  wp_after (P := fun db' => Room db' → Room db) (h db) hroom

theorem pages_checkpoint (db : Database) : (after checkpoint db).pages = db.pages := by
  unfold after checkpoint
  cases db.mgr.checkpoint <;> rfl

theorem Move.room {ok : Condition} (h : Move C ok db db') (hroom : Room db') : Room db := by
  cases h with
  | session c => exact hroom
  | rows stmt hrows ht hok => exact room_of_after (sheds_dispatch _ _) hroom
  | create stmt hcreate hok =>
    cases stmt with
    | createTable table columns => exact room_of_after (sheds_executeCreateTable _ _) hroom
    | createIndex name table column unique => exact room_of_after (sheds_executeCreateIndex _ _ _ _) hroom
    | insert table columns rows => exact absurd trivial hcreate
    | update table assignments where_ => exact absurd trivial hcreate
    | delete table where_ => exact absurd trivial hcreate
  | checkpoint =>
    rw [Room, pages_checkpoint] at hroom
    exact hroom
  | reopen => exact hroom

/-! ## What every state keeps -/

/-- No index is tracked. -/
def never : Tracked := fun _ _ _ => False

/-- A statement keeps the tracked indexes in order. -/
def Fits (C : Conversions) (tr : Tracked) : Condition := fun db stmt txn =>
  match stmt, txn with
  | .createIndex i t column _, _ => ∀ v, Sound C tr db v → ∀ table idx,
      db.catalog.getTable t = .ok table → Keyed table idx → idx.column = column →
      tr t i idx.keyType → Fillable C table.schema idx (v.tuples t)
  | stmt, some txn => StmtFaithful C tr stmt txn db
  | _, none => True

theorem actFaithful_never {table : TableMeta} (db : Database) (a : RowAct) :
    ActFaithful C never table db a := by
  have hkeys : ∀ valueMap, FaithfulKeys C never table valueMap := fun _ _ _ h => h.elim
  cases a with
  | insert values => exact hkeys _
  | update assignments rid => exact fun _ _ valueMap _ => hkeys valueMap
  | delete rid => trivial

theorem stmtFaithful_never (C : Conversions) (stmt : Statement) (txn : Transaction) (db : Database) :
    StmtFaithful C never stmt txn db := fun _ _ _ _ _ => actFaithful_never _ _

theorem fits_never (C : Conversions) (db : Database) (stmt : Statement) (txn : Option Transaction) :
    Fits C never db stmt txn := by
  cases stmt with
  | createIndex i t column unique => exact fun _ _ _ _ _ _ _ h => h.elim
  | createTable table columns =>
    cases txn with
    | none => trivial
    | some txn => exact stmtFaithful_never C _ _ _
  | insert table columns rows =>
    cases txn with
    | none => trivial
    | some txn => exact stmtFaithful_never C _ _ _
  | update table assignments where_ =>
    cases txn with
    | none => trivial
    | some txn => exact stmtFaithful_never C _ _ _
  | delete table where_ =>
    cases txn with
    | none => trivial
    | some txn => exact stmtFaithful_never C _ _ _

structure Good (C : Conversions) (tr : Tracked) (db : Database) : Prop where
  inv : db.session.Inv
  sound : ∃ v, Sound C tr db v

/-- What a statement on rows has done when it is over. -/
def RowsEffect (C : Conversions) (tr : Tracked) (stmt : Statement) (txn : Transaction)
    (db : Database) (v : View) (db' : Database) : Prop :=
  (∃ r, Done C tr stmt txn db v r db') ∨ Failed C tr False stmt txn db v db'

theorem RowsEffect.sound {stmt : Statement} {txn : Transaction} (hs : Sound C tr db v)
    (h : RowsEffect C tr stmt txn db v db') : (∃ v', Sound C tr db' v') ∧ Within db db' := by
  obtain ⟨r, table, acts, v', -, -, -, hwritten⟩ | ⟨rfl, -⟩ | ⟨table, acts, v', -, -, hraised⟩ := h
  · exact ⟨⟨v', hwritten.sound⟩, hwritten.within⟩
  · exact ⟨⟨v, hs⟩, .refl _⟩
  · exact ⟨⟨v', hraised.sound⟩, hraised.within⟩

/-- The body of a statement on rows. -/
theorem wp_dispatch {taken : Prop} {stmt : Statement} {txn : Transaction} (hrows : stmt.OnRows)
    (hs : Sound C tr db v) (hid : txn.txnId < 2 ^ 32) (hfaithful : StmtFaithful C tr stmt txn db)
    (htaken : taken → StmtAdmitted C tr txn db stmt) :
    wpIf Room (dispatch C stmt txn) (Done C tr stmt txn db v)
      (fun _ db' => Failed C tr taken stmt txn db v db') db := by
  cases stmt with
  | createTable table columns => exact hrows.elim
  | createIndex name table column unique => exact hrows.elim
  | insert table columns rows => exact wp_executeInsert hs hid hfaithful htaken
  | update table assignments where_ => exact wp_executeUpdate hs hid hfaithful htaken
  | delete table where_ => exact (wp_executeDelete hs hid).wpIf

theorem dispatch_effect {stmt : Statement} {txn : Transaction} (hrows : stmt.OnRows)
    (hs : Sound C tr db v) (hid : txn.txnId < 2 ^ 32) (hfaithful : StmtFaithful C tr stmt txn db)
    (hroom : Room (after (dispatch C stmt txn) db)) :
    RowsEffect C tr stmt txn db v (after (dispatch C stmt txn) db) := by
  have htaken : False → StmtAdmitted C tr txn db stmt := False.elim
  have hwp := wp_dispatch hrows hs hid hfaithful htaken
  refine wp_after (P := fun db' => Room db' → RowsEffect C tr stmt txn db v db') ?_ hroom
  exact wp.mono hwp (fun r _ h hroom => .inl ⟨r, h hroom⟩) fun _ _ h hroom => .inr (h hroom)

theorem Within.inv (h : Within db db') (hi : db.session.Inv) : db'.session.Inv :=
  hi.effect (.unchanged h.nextTxnId h.activeXids h.abortedXids h.txns)

theorem Good.rows {stmt : Statement} {t : Nat} {txn : Transaction} (hg : Good C tr db)
    (hrows : stmt.OnRows) (ht : db.session.txns t = some txn) (hfaithful : StmtFaithful C tr stmt txn db)
    (hroom : Room (after (dispatch C stmt txn) db)) :
    Good C tr (after (dispatch C stmt txn) db) ∧ Within db (after (dispatch C stmt txn) db) := by
  obtain ⟨hi, v, hs⟩ := hg
  obtain ⟨hid, -, -, hlt⟩ := hi.handle ht
  obtain ⟨hsound, hwithin⟩ := (dispatch_effect hrows hs (hid ▸ hlt) hfaithful hroom).sound hs
  exact ⟨⟨hwithin.inv hi, hsound⟩, hwithin⟩

theorem Good.create {stmt : Statement} (hg : Good C tr db) (hcreate : ¬stmt.OnRows)
    (hfits : Fits C tr db stmt none) (hroom : Room (after (execute C stmt none) db)) :
    Good C tr (after (execute C stmt none) db) := by
  obtain ⟨hi, v, hs⟩ := hg
  have hstay : Good C tr db := ⟨hi, v, hs⟩
  refine wp_after (P := fun db' => Room db' → Good C tr db') ?_ hroom
  cases stmt with
  | createTable table columns =>
    refine wp.mono (wp_executeCreateTable hs) (fun _ db' h hroom => ?_) fun _ db' h hroom => ?_
    · obtain ⟨hsession, -, -, hs'⟩ := h hroom
      exact ⟨hsession ▸ hi, _, hs'⟩
    · rw [h hroom]
      exact hstay
  | createIndex name table column unique =>
    refine wp.mono (wp_executeCreateIndex hs (hfits v hs)) (fun _ db' h hroom => ?_)
      fun _ db' h hroom => ?_
    · obtain ⟨table, idx, v', hmade, -⟩ := h hroom
      exact ⟨hmade.session ▸ hi, v', hmade.sound⟩
    · obtain rfl | ⟨table, idx, v', hmade, -⟩ := h hroom
      · exact hstay
      · exact ⟨hmade.session ▸ hi, v', hmade.sound⟩
  | insert table columns rows => exact absurd trivial hcreate
  | update table assignments where_ => exact absurd trivial hcreate
  | delete table where_ => exact absurd trivial hcreate

theorem Good.session {s : Session LogOp} (hg : Good C tr db) (hi : s.Inv) :
    Good C tr { db with session := s } := by
  obtain ⟨-, v, hs⟩ := hg
  exact ⟨hi, v, hs.congr rfl rfl⟩

theorem checkpoint_after (db : Database) :
    ∃ wal, after checkpoint db = { db with session := { db.session with mgr := { db.mgr with wal } } } := by
  unfold after checkpoint
  cases h : db.mgr.checkpoint with
  | ok mgr => exact ⟨_, by rw [(TransactionManager.checkpoint_ok h).2]⟩
  | error e => exact ⟨db.mgr.wal, rfl⟩

theorem Move.good {ok : Condition} (h : Move C ok db db')
    (hok : ∀ db stmt txn, ok db stmt txn → Fits C tr db stmt txn) (hg : Good C tr db)
    (hroom : Room db') : Good C tr db' := by
  cases h with
  | session c => exact hg.session (hg.inv.step c)
  | rows stmt hrows ht hrun =>
    refine (hg.rows hrows ht ?_ hroom).1
    have hfits := hok _ _ _ hrun
    cases stmt with
    | createTable table columns => exact hrows.elim
    | createIndex name table column unique => exact hrows.elim
    | insert table columns rows => exact hfits
    | update table assignments where_ => exact hfits
    | delete table where_ => exact hfits
  | create stmt hcreate hrun => exact hg.create hcreate (hok _ _ _ hrun) hroom
  | checkpoint =>
    obtain ⟨wal, heq⟩ := checkpoint_after db
    rw [heq]
    exact hg.session (hg.inv.with_wal wal)
  | reopen => exact hg.session (Session.inv_reopen _)

/-! ## Calls as moves -/

abbrev Moves (C : Conversions) (ok : Condition) : Database → Database → Prop :=
  Relation.ReflTransGen (Move C ok)

theorem Moves.good {ok : Condition} (h : Moves C ok db db')
    (hok : ∀ db stmt txn, ok db stmt txn → Fits C tr db stmt txn) (hg : Good C tr db)
    (hroom : Room db') : Good C tr db' := by
  induction h with
  | refl => exact hg
  | tail _ hmove ih => exact hmove.good hok (ih (hmove.room hroom)) hroom

theorem after_bind {β : Type} {m : DbM α} {f : α → DbM β} (hf : ∀ a db, after (f a) db = db)
    (db : Database) : after (m >>= f) db = after m db := by
  cases hm : m db with
  | ok a db₁ =>
    rw [after_ok hm, ← hf a db₁, after, run_bind_ok hm, after]
  | error e db₁ =>
    rw [after_error hm]
    simp only [after, bind, EStateM.bind, hm]

/-- A call on the manager is a move of the session. -/
theorem after_begin (db : Database) :
    after begin db = { db with session := db.session.step .begin } := after_onManager _ db

theorem after_commit {t : Nat} {txn : Transaction} (ht : db.session.txns t = some txn) :
    after (commit txn) db = { db with session := db.session.step (.commit t) } := by
  rw [commit, after_onManager, Session.step, ht]
  rfl

theorem after_abort {t : Nat} {txn : Transaction} (ht : db.session.txns t = some txn) :
    after (abort txn) db = { db with session := db.session.step (.abort t) } := by
  rw [abort, after_onManager, Session.step, ht]
  rfl

/-- The transaction of a statement that has none: it is new, and found among the handles. -/
theorem begin_eq_ok {txn : Transaction} (h : begin db = .ok txn db') :
    db' = { db with session := db.session.step .begin } ∧ txn = db.session.newTxn ∧
      db.mgr.nextTxnId < 2 ^ 32 ∧ db'.session.txns txn.txnId = some txn := by
  have hafter := after_ok h
  rw [after_begin] at hafter
  have hlt : db.mgr.nextTxnId < 2 ^ 32 := by
    by_contra hge
    simp only [begin, onManager, TransactionManager.begin, WriteAheadLog.logBegin,
      WriteAheadLog.append_refused _ hge] at h
    cases h
  have htxn : txn = db.session.newTxn := by
    simp only [begin, onManager, TransactionManager.begin, WriteAheadLog.logBegin,
      WriteAheadLog.append_eq _ hlt] at h
    cases h
    rfl
  refine ⟨hafter.symm, htxn, hlt, ?_⟩
  rw [← hafter, htxn]
  dsimp only
  rw [Session.step_begin hlt]
  exact Function.update_self _ _ _

theorem run_autocommit (body : Transaction → DbM α) {txn : Transaction} {db₁ : Database}
    (hb : begin db = .ok txn db₁) :
    autocommit body db = match body txn db₁ with
      | .ok a db => (commit txn >>= fun _ => (return a : DbM α)) db
      | .error e db => (abort txn >>= fun _ => (throw e : DbM α)) db := by
  unfold autocommit
  exact run_bind_ok hb

/-- A statement that returns commits its own transaction. -/
theorem after_autocommit_ok {body : Transaction → DbM α} {txn : Transaction} {db₁ db₂ : Database} {a : α}
    (hb : begin db = .ok txn db₁) (hm : body txn db₁ = .ok a db₂) :
    after (autocommit body) db = after (commit txn) db₂ := by
  have hrun := run_autocommit body hb
  rw [hm] at hrun
  rw [← after_bind (m := commit txn) (f := fun _ => (return a : DbM α)) (fun _ _ => rfl)]
  simp only [after, hrun]

/-- A statement that raises aborts its own transaction. -/
theorem after_autocommit_raised {body : Transaction → DbM α} {txn : Transaction} {db₁ db₂ : Database}
    {e : PyError} (hb : begin db = .ok txn db₁) (hm : body txn db₁ = .error e db₂) :
    after (autocommit body) db = after (abort txn) db₂ := by
  have hrun := run_autocommit body hb
  rw [hm] at hrun
  rw [← after_bind (m := abort txn) (f := fun _ => (throw e : DbM α)) (fun _ _ => rfl)]
  simp only [after, hrun]

/-- A statement in a transaction of its own ends with a call on the manager. -/
theorem after_autocommit (body : Transaction → DbM α) {txn : Transaction} {db₁ : Database}
    (hb : begin db = .ok txn db₁) :
    after (autocommit body) db = after (commit txn) (after (body txn) db₁) ∨
      after (autocommit body) db = after (abort txn) (after (body txn) db₁) := by
  cases hm : body txn db₁ with
  | ok a db₂ =>
    rw [after_ok hm]
    exact .inl (after_autocommit_ok hb hm)
  | error e db₂ =>
    rw [after_error hm]
    exact .inr (after_autocommit_raised hb hm)

theorem after_autocommit_error {body : Transaction → DbM α} {e : PyError}
    (hb : begin db = .error e db') : after (autocommit body) db = after begin db := by
  unfold autocommit
  simp only [after, bind, EStateM.bind, hb]

theorem room_autocommit {body : Transaction → DbM α} (hbody : ∀ txn, Sheds Room (body txn))
    (hroom : Room (after (autocommit body) db)) : Room db := by
  cases hb : begin db with
  | error e db₁ =>
    rw [after_autocommit_error hb, begin, after_onManager] at hroom
    exact hroom
  | ok txn db₁ =>
    have hroom' : Room (after (body txn) db₁) := by
      obtain heq | heq := after_autocommit body hb
      · rw [heq, commit, after_onManager] at hroom
        exact hroom
      · rw [heq, abort, after_onManager] at hroom
        exact hroom
    have hroom₁ := room_of_after (hbody txn) hroom'
    rw [(begin_eq_ok hb).1] at hroom₁
    exact hroom₁

theorem reads_query (raises : Bool) (txn : Transaction) : Reads (query raises txn) := by
  cases raises
  · exact .pure _
  · exact .throw _

theorem after_query (raises : Bool) (txn : Transaction) (db : Database) :
    after (query raises txn) db = db := by
  cases raises <;> rfl

theorem Step.room {c : Call} (h : Step C db c db') (hroom : Room db') : Room db := by
  cases h with
  | begin =>
    rw [after_begin] at hroom
    exact hroom
  | commit ht =>
    rw [after_commit ht] at hroom
    exact hroom
  | abort ht =>
    rw [after_abort ht] at hroom
    exact hroom
  | execute stmt =>
    cases stmt with
    | createTable table columns => exact room_of_after (sheds_executeCreateTable _ _) hroom
    | createIndex name table column unique => exact room_of_after (sheds_executeCreateIndex _ _ _ _) hroom
    | insert table columns rows => exact room_autocommit (sheds_dispatch _) hroom
    | update table assignments where_ => exact room_autocommit (sheds_dispatch _) hroom
    | delete table where_ => exact room_autocommit (sheds_dispatch _) hroom
  | executeIn stmt ht =>
    rw [execute_some] at hroom
    exact room_of_after (sheds_dispatch _ _) hroom
  | select raises =>
    exact room_autocommit (fun txn => (reads_query raises txn).sheds) hroom
  | selectIn => exact hroom
  | checkpoint =>
    rw [Room, pages_checkpoint] at hroom
    exact hroom
  | reopen none => exact hroom

/-- A statement in a transaction of its own: the moves of its body between two of the session. -/
theorem autocommit_moves {ok : Condition} {body : Transaction → DbM α}
    (hbody : ∀ txn db₁, begin db = .ok txn db₁ → Room (after (body txn) db₁) →
      Moves C ok db₁ (after (body txn) db₁) ∧
        (after (body txn) db₁).session.txns = db₁.session.txns)
    (hroom : Room (after (autocommit body) db)) : Moves C ok db (after (autocommit body) db) := by
  have hfirst : Moves C ok db (after begin db) := by
    rw [after_begin]
    exact .single (.session .begin)
  cases hb : begin db with
  | error e db₁ =>
    rw [after_autocommit_error hb]
    exact hfirst
  | ok txn db₁ =>
    rw [after_ok hb] at hfirst
    have hfound := (begin_eq_ok hb).2.2.2
    have hroom' : Room (after (body txn) db₁) := by
      obtain heq | heq := after_autocommit body hb
      · rw [heq, commit, after_onManager] at hroom
        exact hroom
      · rw [heq, abort, after_onManager] at hroom
        exact hroom
    obtain ⟨hmoves, hkeep⟩ := hbody txn db₁ hb hroom'
    have hfound' : (after (body txn) db₁).session.txns txn.txnId = some txn := by rw [hkeep, hfound]
    refine (hfirst.trans hmoves).tail ?_
    obtain heq | heq := after_autocommit body hb
    · rw [heq, after_commit hfound']
      exact .session _
    · rw [heq, after_abort hfound']
      exact .session _

/-- What the moves of a call may be asked to meet: the condition holds of the statement, in the
    transaction it was given or in the one that is begun for it. -/
def CallOk (ok : Condition) (db : Database) : Call → Prop
  | .execute (.createTable table columns) _ => ok db (.createTable table columns) none
  | .execute (.createIndex name table column unique) _ =>
    ok db (.createIndex name table column unique) none
  | .execute stmt (some t) => ∀ txn, db.session.txns t = some txn → ok db stmt (some txn)
  | .execute stmt none => ∀ txn db₁, begin db = .ok txn db₁ → ok db₁ stmt (some txn)
  | _ => True

theorem Step.moves {ok : Condition} {c : Call} (h : Step C db c db') (hg : Good C never db)
    (hok : CallOk ok db c) (hroom : Room db') : Moves C ok db db' := by
  have hauto : ∀ {stmt : Statement}, stmt.OnRows →
      (∀ txn db₁, Database.begin db = .ok txn db₁ → ok db₁ stmt (some txn)) →
      Room (after (autocommit (dispatch C stmt)) db) →
      Moves C ok db (after (autocommit (dispatch C stmt)) db) := by
    intro stmt hrows hok hroom
    refine autocommit_moves (fun txn db₁ hb hroom' => ?_) hroom
    obtain ⟨rfl, -, -, hfound⟩ := begin_eq_ok hb
    refine ⟨.single (.rows stmt hrows hfound (hok _ _ hb)), ?_⟩
    exact ((hg.session (hg.inv.step .begin)).rows hrows hfound (stmtFaithful_never C _ _ _) hroom').2.txns
  cases h with
  | begin =>
    rw [after_begin]
    exact .single (.session _)
  | commit ht =>
    rw [after_commit ht]
    exact .single (.session _)
  | abort ht =>
    rw [after_abort ht]
    exact .single (.session _)
  | execute stmt =>
    cases stmt with
    | createTable table columns => exact .single (.create (.createTable table columns) id hok)
    | createIndex name table column unique =>
      exact .single (.create (.createIndex name table column unique) id hok)
    | insert table columns rows => exact hauto trivial hok hroom
    | update table assignments where_ => exact hauto trivial hok hroom
    | delete table where_ => exact hauto trivial hok hroom
  | executeIn stmt ht =>
    cases stmt with
    | createTable table columns => exact .single (.create (.createTable table columns) id hok)
    | createIndex name table column unique =>
      exact .single (.create (.createIndex name table column unique) id hok)
    | insert table columns rows => exact .single (.rows (.insert table columns rows) trivial ht (hok _ ht))
    | update table assignments where_ =>
      exact .single (.rows (.update table assignments where_) trivial ht (hok _ ht))
    | delete table where_ => exact .single (.rows (.delete table where_) trivial ht (hok _ ht))
  | select raises =>
    refine autocommit_moves (fun txn db₁ _ _ => ?_) hroom
    rw [after_query]
    exact ⟨.refl, rfl⟩
  | selectIn => exact .refl
  | checkpoint => exact .single .checkpoint
  | reopen none => exact .single .reopen

/-- Nothing is asked of the statements. -/
def anyStatement : Condition := fun _ _ _ => True

theorem callOk_anyStatement (db : Database) (c : Call) : CallOk anyStatement db c := by
  unfold CallOk
  split <;> simp [anyStatement]

theorem sound_fresh : Sound C tr fresh ⟨⟨fun _ => [], fun _ _ => []⟩, fun _ => none, fun _ => 0⟩ where
  layout := by
    constructor <;> simp [fresh, Dict.get?]
  ordered := by
    intro t table i idx ht
    cases ht

/-- Every state that is reached within the limit is in order. -/
theorem Reachable.good (h : Reachable C db) (hroom : Room db) : Good C never db := by
  induction h with
  | fresh => exact ⟨Session.fresh_inv, _, sound_fresh⟩
  | call h step ih =>
    have hg := ih (step.room hroom)
    exact (step.moves hg (callOk_anyStatement _ _) hroom).good (fun _ _ _ _ => fits_never C _ _ _) hg hroom

end Database
end Minirel
