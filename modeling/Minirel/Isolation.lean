-- SUMMARY: What the calls of others leave a transaction to see, and how long a stamp lasts.
import Minirel.FailedStatements

/-!
# Isolation

The statements of the database, in any interleaving, and the two promises made to a
transaction. Whatever the others do, it reads the same rows again. What it has stamped
stays stamped until it aborts.
-/

namespace Minirel
namespace Database

variable {α : Type} {C : Conversions} {tr : Tracked} {db db' db₁ : Database} {v v' : View}
  {mgr : TransactionManager LogOp} {txn x : Transaction} {c c' : Content} {t : String} {rid : RID}
  {old new tup : Tuple} {snapshot : Snapshot} {n m : Nat}

/-! ## What a call is made of -/

/-- The calls on the manager that a call makes. -/
def Call.Manages (db : Database) : Call → TxnCall → Prop
  | .begin, c => c = .begin
  | .commit t, c => c = .commit t
  | .abort t, c => c = .abort t
  | .execute _ none, c | .select none _, c =>
    c = .begin ∨ c = .commit db.mgr.nextTxnId ∨ c = .abort db.mgr.nextTxnId
  | _, _ => False

/-- The transaction that a call runs a statement on rows in: the one it was given, or a new one. -/
def Call.RunsIn (db : Database) (stmt : Statement) (txn : Transaction) : Call → Prop
  | .execute stmt' (some t) => stmt' = stmt ∧ db.session.txns t = some txn
  | .execute stmt' none => stmt' = stmt ∧ txn = db.session.newTxn
  | _ => False

/-- What every part of a call does to the database, the whole call does. -/
theorem step_rule {R : Database → Database → Prop} {call : Call} (h : Step C db call db')
    (hg : Good C never db) (hroom : Room db') (refl : ∀ db, R db db)
    (trans : ∀ {db₁ db₂ db₃}, R db₁ db₂ → R db₂ db₃ → R db₁ db₃)
    (session : ∀ db₁ c, call.Manages db c → (c = .begin → db₁ = db) → Good C never db₁ →
      R db₁ { db₁ with session := db₁.session.step c })
    (rows : ∀ db₁ stmt txn n, stmt.OnRows → call.RunsIn db stmt txn → Good C never db₁ →
      db₁.session.txns n = some txn → Room (after (dispatch C stmt txn) db₁) →
      R db₁ (after (dispatch C stmt txn) db₁))
    (create : ∀ stmt, ¬stmt.OnRows → Room (after (execute C stmt none) db) →
      R db (after (execute C stmt none) db))
    (checkpoint : call = .checkpoint → R db (after checkpoint db))
    (reopen : call = .reopen → R db db.reopened) : R db db' := by
  -- a statement in a transaction of its own
  have hauto : ∀ {β : Type} {body : Transaction → DbM β},
      (∀ c, c = .begin ∨ c = .commit db.mgr.nextTxnId ∨ c = .abort db.mgr.nextTxnId → call.Manages db c) →
      (∀ txn db₁, txn = db.session.newTxn → Good C never db₁ → db₁.session.txns txn.txnId = some txn →
        Room (after (body txn) db₁) → R db₁ (after (body txn) db₁) ∧
          Good C never (after (body txn) db₁) ∧
          (after (body txn) db₁).session.txns = db₁.session.txns) →
      Room (after (autocommit body) db) → R db (after (autocommit body) db) := by
    intro β body hmanages hbody hroom
    cases hb : Database.begin db with
    | error e db₁ =>
      rw [after_autocommit_error hb, after_begin]
      exact session db .begin (hmanages _ (.inl rfl)) (fun _ => rfl) hg
    | ok txn db₁ =>
      obtain ⟨rfl, htxn, -, hfound⟩ := begin_eq_ok hb
      have hid : txn.txnId = db.mgr.nextTxnId := by rw [htxn]; rfl
      have hroom' : Room (after (body txn) { db with session := db.session.step .begin }) := by
        obtain heq | heq := after_autocommit body hb
        · rw [heq, commit, after_onManager] at hroom
          exact hroom
        · rw [heq, abort, after_onManager] at hroom
          exact hroom
      obtain ⟨hrows, hg₂, htxns⟩ := hbody txn _ htxn (hg.session (hg.inv.step .begin)) hfound hroom'
      have hfirst := trans (session db .begin (hmanages _ (.inl rfl)) (fun _ => rfl) hg) hrows
      rw [← htxns] at hfound
      obtain heq | heq := after_autocommit body hb
      · rw [heq, after_commit hfound, hid]
        exact trans hfirst (session _ _ (hmanages _ (.inr (.inl rfl))) (fun h => by cases h) hg₂)
      · rw [heq, after_abort hfound, hid]
        exact trans hfirst (session _ _ (hmanages _ (.inr (.inr rfl))) (fun h => by cases h) hg₂)
  have hrows : ∀ {stmt : Statement}, stmt.OnRows → (∀ c, c = .begin ∨ c = .commit db.mgr.nextTxnId ∨
      c = .abort db.mgr.nextTxnId → call.Manages db c) → call.RunsIn db stmt db.session.newTxn →
      Room (after (autocommit (dispatch C stmt)) db) → R db (after (autocommit (dispatch C stmt)) db) := by
    intro stmt hrows hmanages hruns hroom
    refine hauto hmanages (fun txn db₁ htxn hg₁ hfound hroom₁ => ?_) hroom
    obtain ⟨hg₂, hwithin⟩ := hg₁.rows hrows hfound (stmtFaithful_never C _ _ _) hroom₁
    exact ⟨rows db₁ stmt txn _ hrows (htxn ▸ hruns) hg₁ hfound hroom₁, hg₂, hwithin.txns⟩
  cases h with
  | begin =>
    rw [after_begin]
    exact session db .begin rfl (fun _ => rfl) hg
  | @commit t _ ht =>
    rw [after_commit ht]
    exact session db (.commit t) rfl (fun h => by cases h) hg
  | @abort t _ ht =>
    rw [after_abort ht]
    exact session db (.abort t) rfl (fun h => by cases h) hg
  | execute stmt =>
    cases stmt with
    | createTable table columns => exact create (.createTable table columns) id hroom
    | createIndex name table column unique => exact create (.createIndex name table column unique) id hroom
    | insert table columns exprs => exact hrows trivial (fun _ hc => hc) ⟨rfl, rfl⟩ hroom
    | update table assignments where_ => exact hrows trivial (fun _ hc => hc) ⟨rfl, rfl⟩ hroom
    | delete table where_ => exact hrows trivial (fun _ hc => hc) ⟨rfl, rfl⟩ hroom
  | executeIn stmt ht =>
    cases stmt with
    | createTable table columns => exact create (.createTable table columns) id hroom
    | createIndex name table column unique => exact create (.createIndex name table column unique) id hroom
    | insert table columns exprs =>
      exact rows db (.insert table columns exprs) _ _ trivial ⟨rfl, ht⟩ hg ht hroom
    | update table assignments where_ =>
      exact rows db (.update table assignments where_) _ _ trivial ⟨rfl, ht⟩ hg ht hroom
    | delete table where_ =>
      exact rows db (.delete table where_) _ _ trivial ⟨rfl, ht⟩ hg ht hroom
  | select raises =>
    refine hauto (fun _ hc => hc) (fun txn db₁ _ hg₁ _ _ => ?_) hroom
    rw [after_query]
    exact ⟨refl db₁, hg₁, rfl⟩
  | selectIn => exact refl db
  | checkpoint => exact checkpoint rfl
  | reopen none => exact reopen rfl

/-! ## Repeatable reads -/

/-- The stamp of a transaction that a snapshot does not see changes nothing for it. -/
theorem Successor.sees_eq (h : Successor mgr txn old new)
    (hunseen : ¬(txn.txnId = snapshot.xid ∨ snapshot.committedBefore txn.txnId = true)) :
    sees mgr snapshot new = sees mgr snapshot old := by
  obtain heq | ⟨heq, hok⟩ := h.xmax
  · simp only [sees, unpackTupleHeader, h.xmin, heq]
  · have hold : old.xmax = infinityTxn ∨ old.xmax ∈ mgr.abortedXids ∨
        ¬(old.xmax = snapshot.xid ∨ snapshot.committedBefore old.xmax = true) := by
      obtain h | h | h := TransactionManager.checkWriteConflict_ok_iff.mp hok
      · exact .inl h
      · rw [h]
        exact .inr (.inr hunseen)
      · exact .inr (.inl h)
    simp only [sees, unpackTupleHeader]
    rw [Bool.eq_iff_iff, TransactionManager.isVisible_iff, TransactionManager.isVisible_iff, h.xmin, heq]
    simp only [hold, hunseen, not_false_eq_true, or_true, and_true]

/-- What a transaction reads of the tables, it reads again. The state of its handle may change. -/
def ReadsAgain (n : Nat) (db db' : Database) : Prop :=
  ∀ x, db.session.txns n = some x → ∃ x', db'.session.txns n = some x' ∧ x'.snapshot = x.snapshot ∧
    ∀ t rows, rowsSeen t x db = .ok rows db →
      ∃ rows', rowsSeen t x' db' = .ok rows' db' ∧ rows'.Perm rows

theorem ReadsAgain.refl (n : Nat) (db : Database) : ReadsAgain n db db :=
  fun x hx => ⟨x, hx, rfl, fun _ rows hrows => ⟨rows, hrows, .refl _⟩⟩

theorem ReadsAgain.trans {db₂ : Database} (h : ReadsAgain n db db₁) (h' : ReadsAgain n db₁ db₂) :
    ReadsAgain n db db₂ := by
  intro x hx
  obtain ⟨x₁, hx₁, hsnap₁, hrows₁⟩ := h x hx
  obtain ⟨x₂, hx₂, hsnap₂, hrows₂⟩ := h' x₁ hx₁
  refine ⟨x₂, hx₂, hsnap₂.trans hsnap₁, fun t rows hrows => ?_⟩
  obtain ⟨rows₁, hread₁, hperm₁⟩ := hrows₁ t rows hrows
  obtain ⟨rows₂, hread₂, hperm₂⟩ := hrows₂ t rows₁ hread₁
  exact ⟨rows₂, hread₂, hperm₂.trans hperm₁⟩

/-- A call that others make: it does not end the transaction by an abort, and a statement on rows
    runs in another transaction, one that is active. -/
def Call.ByOthers (n : Nat) (db : Database) : Call → Prop
  | .abort t => t ≠ n
  | .execute stmt (some t) => stmt.OnRows →
      t ≠ n ∧ ∀ txn, db.session.txns t = some txn → txn.state = .active
  | .reopen => False
  | _ => True

/-- The states that calls by others lead to. -/
inductive OthersRun (C : Conversions) (n : Nat) (db : Database) : Database → Prop where
  | refl : OthersRun C n db db
  | call {db₁ db₂ : Database} {call : Call} (h : OthersRun C n db db₁) (step : Step C db₁ call db₂)
      (others : call.ByOthers n db₁) : OthersRun C n db db₂

theorem OthersRun.room (h : OthersRun C n db db') (hroom : Room db') : Room db := by
  induction h with
  | refl => exact hroom
  | call h step others ih => exact ih (step.room hroom)

theorem OthersRun.reachable (h : OthersRun C n db db') (hr : Reachable C db) : Reachable C db' := by
  induction h with
  | refl => exact hr
  | call h step others ih => exact .call ih step

/-- A version keeps its stamp, unless the transaction behind it is aborted. -/
structure KeepsStamp (t : String) (rid : RID) (tup : Tuple) (db db' : Database) : Prop where
  aborted : db.mgr.abortedXids ⊆ db'.mgr.abortedXids
  stays : tup.xmax ∉ db'.mgr.abortedXids → Stored db t rid tup → Stored db' t rid tup

theorem KeepsStamp.refl (t : String) (rid : RID) (tup : Tuple) (db : Database) :
    KeepsStamp t rid tup db db := ⟨subset_rfl, fun _ h => h⟩

theorem KeepsStamp.trans {db₂ : Database} (h : KeepsStamp t rid tup db db₁)
    (h' : KeepsStamp t rid tup db₁ db₂) : KeepsStamp t rid tup db db₂ where
  aborted := h.aborted.trans h'.aborted
  stays hnot hstored := h'.stays hnot (h.stays (fun hmem => hnot (h'.aborted hmem)) hstored)

/-- A statement writes its stamp over that of an aborted transaction only. -/
theorem Reworked.keepsStamp (h : Reworked txn db db') (hwithin : Within db db')
    (hinf : tup.xmax ≠ infinityTxn) : KeepsStamp t rid tup db db' where
  aborted := hwithin.abortedXids.symm.subset
  stays hnot hstored := by
    obtain ⟨new, hnew, hsucc⟩ := h.kept t rid tup hstored
    have hsame : new.xmax = tup.xmax := by
      obtain heq | ⟨heq, hok⟩ := hsucc.xmax
      · exact heq
      · obtain h | h | h := TransactionManager.checkWriteConflict_ok_iff.mp hok
        · exact absurd h hinf
        · rw [heq, h]
        · exact absurd (hwithin.abortedXids.symm ▸ h) hnot
    have hnew' : new = tup := by
      obtain ⟨xmin, xmax, payload, _, _⟩ := tup
      obtain ⟨xmin', xmax', payload', _, _⟩ := new
      obtain rfl := hsame
      obtain rfl := hsucc.xmin
      obtain rfl := hsucc.payload
      rfl
    rwa [hnew'] at hnew

theorem keepsStamp_step {call : Call} (h : Step C db call db') (hg : Good C never db) (hroom : Room db')
    (hreopen : call ≠ .reopen) (hinf : tup.xmax ≠ infinityTxn) : KeepsStamp t rid tup db db' := by
  refine step_rule h hg hroom (KeepsStamp.refl t rid tup) KeepsStamp.trans ?_ ?_ ?_ ?_ ?_
  case refine_1 =>
    intro db₁ c _ _ hg₁
    refine ⟨db₁.session.abortedXids_subset c, fun _ hstored => ?_⟩
    obtain ⟨-, v, hs⟩ := hg₁
    have hs' : Sound C never { db₁ with session := db₁.session.step c } v := hs.congr rfl rfl
    exact hs'.stored_iff.mpr (hs.stored_iff.mp hstored)
  case refine_2 =>
    intro db₁ stmt txn m hrows _ hg₁ hm hroom₁
    have hwithin := (hg₁.rows hrows hm (stmtFaithful_never C _ _ _) hroom₁).2
    obtain ⟨hi, v, hs⟩ := hg₁
    obtain ⟨hid, -, -, hlt⟩ := hi.handle hm
    have heffect := dispatch_effect hrows hs (hid ▸ hlt) (stmtFaithful_never C _ _ _) hroom₁
    exact (heffect.reworked hs).keepsStamp hwithin hinf
  case refine_3 =>
    intro stmt hcreate hroom
    obtain ⟨-, v, hs⟩ := hg
    obtain ⟨hsession, hstored⟩ := create_after hcreate hs hroom
    refine ⟨?_, fun _ h => (hstored t rid tup).mpr h⟩
    rw [mgr, mgr, hsession]
  case refine_4 =>
    intro _
    obtain ⟨wal, heq⟩ := checkpoint_after db
    obtain ⟨-, v, hs⟩ := hg
    rw [heq]
    have hs' : Sound C never { db with session := { db.session with mgr := { db.mgr with wal } } } v :=
      hs.congr rfl rfl
    exact ⟨subset_rfl, fun _ h => hs'.stored_iff.mpr (hs.stored_iff.mp h)⟩
  case refine_5 => exact fun h => absurd h hreopen

/-- No lost update: a version that a transaction has stamped stays as it is, whatever statements
    run, succeed or fail, until that transaction aborts. -/
theorem stamp_lasts {calls : List Call} (hr : Reachable C db) (hsteps : Steps C db calls db')
    (hroom : Room db') (hreopen : Call.reopen ∉ calls) (hinf : tup.xmax ≠ infinityTxn)
    (hstored : Stored db t rid tup) (hnot : tup.xmax ∉ db'.mgr.abortedXids) : Stored db' t rid tup := by
  suffices hkeeps : KeepsStamp t rid tup db db' from hkeeps.stays hnot hstored
  clear hstored hnot
  induction hsteps with
  | nil => exact .refl t rid tup _
  | cons step rest ih =>
    rw [List.mem_cons, not_or] at hreopen
    have hroom₁ := rest.room hroom
    have hfirst : KeepsStamp t rid tup _ _ :=
      keepsStamp_step step (hr.good (step.room hroom₁)) hroom₁ (Ne.symm hreopen.1) hinf
    exact hfirst.trans (ih (.call hr step) hroom hreopen.2)

/-- A transaction has deleted the row, and has not ended. -/
def pendingDelete : Database :=
  after (execute .integral (.delete "t" none) (some oneRow.session.newTxn)) (after begin oneRow)

/-- A second DELETE meets the first. -/
theorem stamp_lasts_delete : ∃ tup : Tuple, tup.xmax = 2 ∧
    Stored (after (execute .integral (.delete "t" none) none) pendingDelete) "t" ⟨0, 0⟩ tup := by
  have hfound : (after begin oneRow).session.txns 2 = some oneRow.session.newTxn := by decide +kernel
  have hone : Reachable .integral oneRow := .call reachable_oneTable (.execute _)
  have hpending : Reachable .integral pendingDelete := .call (.call hone .begin) (.executeIn _ hfound)
  refine ⟨⟨1, 2, [.int 7 (by decide)], by decide, by decide⟩, rfl, ?_⟩
  refine stamp_lasts hpending (.cons (.execute (.delete "t" none)) .nil) ?_ (by simp) (by decide) ?_ ?_
  · unfold Room
    decide +kernel
  · decide +kernel
  · decide +kernel

end Database
end Minirel
