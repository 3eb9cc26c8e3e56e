-- SUMMARY: The ids that stored versions bear have been given out, and stand in the log.
import Minirel.Finished

/-!
# Ids that were given out

A new transaction must not share its id with anyone whose work is in the heaps. A restart
counts on from the largest id in the log: so what matters is that the log has a record of
every transaction that has created or stamped a version.
-/

namespace Minirel
namespace Database

variable {C : Conversions} {db db' : Database} {txn : Transaction} {n : Nat}

/-- The log has a record of the transaction. -/
def InLog (db : Database) (n : Nat) : Prop := ∃ r ∈ db.mgr.wal.records, r.txnId = n

/-- The ids in the log have been given out, and those that stored versions bear are in the
    log. -/
structure Issued (db : Database) : Prop where
  pos : 0 < db.mgr.nextTxnId
  log : ∀ r ∈ db.mgr.wal.records, r.txnId < db.mgr.nextTxnId
  xmin : ∀ t rid tup, Stored db t rid tup → InLog db tup.xmin
  xmax : ∀ t rid tup, Stored db t rid tup → tup.xmax = infinityTxn ∨ InLog db tup.xmax

theorem Issued.lt (h : Issued db) (hn : InLog db n) : n < db.mgr.nextTxnId := by
  obtain ⟨r, hr, rfl⟩ := hn
  exact h.log r hr

theorem Issued.mem {v : View} {table : TableMeta} {t : String} (h : Issued db) (hs : Sound C never db v)
    (ht : db.catalog.tables.get? t = some table) {x : RID × Tuple} (hx : x ∈ v.tuples t) :
    x.2.xmin < db.mgr.nextTxnId ∧ (x.2.xmax = infinityTxn ∨ x.2.xmax < db.mgr.nextTxnId) := by
  have hstored : Stored db t x.1 x.2 := hs.stored_iff.mpr ⟨⟨table, ht⟩, hx⟩
  exact ⟨h.lt (h.xmin _ _ _ hstored), (h.xmax _ _ _ hstored).imp_right h.lt⟩

/-- A version that was there before, stamped perhaps, or a new one. -/
theorem Reworked.issued (h : Reworked txn db db') (hi : Issued db) (htxn : InLog db txn.txnId)
    (hlogged : ∀ n, InLog db n → InLog db' n) (hnext : db.mgr.nextTxnId ≤ db'.mgr.nextTxnId)
    (hlog : ∀ r ∈ db'.mgr.wal.records, r.txnId < db'.mgr.nextTxnId) : Issued db' where
  pos := hi.pos.trans_le hnext
  log := hlog
  xmin t rid tup hstored := by
    obtain ⟨hxmin, -⟩ | ⟨old, hold, hsucc⟩ := h.origin t rid tup hstored
    · exact hxmin ▸ hlogged _ htxn
    · exact hsucc.xmin ▸ hlogged _ (hi.xmin t rid old hold)
  xmax t rid tup hstored := by
    obtain ⟨-, hxmax⟩ | ⟨old, hold, hsucc⟩ := h.origin t rid tup hstored
    · refine hxmax.imp_right fun heq => ?_
      rw [heq]
      exact hlogged _ htxn
    · obtain heq | ⟨heq, -⟩ := hsucc.xmax
      · rw [heq]
        exact (hi.xmax t rid old hold).imp_right (hlogged _)
      · exact .inr (heq ▸ hlogged _ htxn)

/-- Nothing happens to the versions, and records are appended to the log. -/
theorem Issued.append (hi : Issued db)
    (hstored : ∀ t rid tup, Stored db' t rid tup ↔ Stored db t rid tup)
    {l : List (LogRecord LogOp)} (hlog : db'.mgr.wal.records = db.mgr.wal.records ++ l)
    (hnext : db.mgr.nextTxnId ≤ db'.mgr.nextTxnId) (hl : ∀ r ∈ l, r.txnId < db'.mgr.nextTxnId) :
    Issued db' := by
  have hlogged : ∀ n, InLog db n → InLog db' n := by
    rintro n ⟨r, hr, rfl⟩
    exact ⟨r, hlog ▸ List.mem_append_left _ hr, rfl⟩
  constructor
  case pos => exact hi.pos.trans_le hnext
  case log =>
    rw [hlog]
    exact List.forall_mem_append.mpr ⟨fun r hr => (hi.log r hr).trans_le hnext, hl⟩
  case xmin => exact fun t rid tup h => hlogged _ (hi.xmin t rid tup ((hstored t rid tup).mp h))
  case xmax =>
    exact fun t rid tup h => (hi.xmax t rid tup ((hstored t rid tup).mp h)).imp_right (hlogged _)

theorem Issued.move {ok : Condition} (h : Issued db) (hmove : Move C ok db db') (hr : Recorded db)
    (hg : Good C never db) (hroom : Room db') : Issued db' := by
  obtain ⟨hi, v, hs⟩ := hg
  have hview : ∀ {session : Session LogOp} t rid tup,
      Stored { db with session } t rid tup ↔ Stored db t rid tup := by
    intro session t rid tup
    have hs' : Sound C never { db with session } v := hs.congr rfl rfl
    exact hs'.stored_iff.trans hs.stored_iff.symm
  cases hmove with
  | session c =>
    have hsame : db.session.step c = db.session → Issued { db with session := db.session.step c } := by
      intro heq
      refine h.append (l := []) hview ?_ ?_ nofun
      · rw [mgr, heq, List.append_nil, mgr]
      · rw [mgr, mgr, heq]
    cases c with
    | begin =>
      obtain ⟨-, heq⟩ | ⟨-, heq⟩ := db.session.step_begin_cases
      · refine h.append (l := [⟨.begin, db.mgr.nextTxnId, none⟩]) hview ?_ ?_ ?_
        · rw [mgr, heq, mgr]
        · simp [mgr, heq]
        · simp [mgr, heq]
      · refine h.append (l := []) hview ?_ ?_ nofun
        · rw [mgr, heq, List.append_nil, mgr]
        · simp [mgr, heq]
    | commit t =>
      obtain heq | ⟨txn, ht, -, heq⟩ := db.session.step_commit_cases t
      · exact hsame heq
      · obtain ⟨hid, -, hlt, -⟩ := hi.handle ht
        refine h.append (l := [⟨.commit, txn.txnId, none⟩]) hview ?_ ?_ ?_
        · rw [mgr, heq, mgr]
        · simp [mgr, heq]
        · simpa [mgr, heq, hid] using hlt
    | abort t =>
      obtain heq | ⟨txn, ht, -, heq⟩ := db.session.step_abort_cases t
      · exact hsame heq
      · obtain ⟨hid, -, hlt, -⟩ := hi.handle ht
        refine h.append (l := [⟨.abort, txn.txnId, none⟩]) hview ?_ ?_ ?_
        · rw [mgr, heq, mgr]
        · simp [mgr, heq]
        · simpa [mgr, heq, hid] using hlt
  | rows stmt hrows ht hok =>
    obtain ⟨hid, -, hlt, hfits⟩ := hi.handle ht
    have heffect := dispatch_effect hrows hs (hid ▸ hfits) (stmtFaithful_never C _ _ _) hroom
    have hwithin := (heffect.sound hs).2
    obtain ⟨rs, hlog, hrs⟩ := wp_after (logsAs_dispatch hrows _ db)
    refine (heffect.reworked hs).issued h (hid ▸ (hr _ _ ht).1) ?_ hwithin.nextTxnId.ge ?_
    · rintro n ⟨r, hr, rfl⟩
      exact ⟨r, hlog ▸ List.mem_append_left _ hr, rfl⟩
    · rw [hwithin.nextTxnId, hlog]
      exact List.forall_mem_append.mpr ⟨h.log, fun r hr => by rw [(hrs r hr).2, hid]; exact hlt⟩
  | create stmt hcreate hok =>
    obtain ⟨hsession, hstored⟩ := create_after hcreate hs hroom
    refine h.append (l := []) hstored ?_ ?_ nofun
    · rw [mgr, hsession, List.append_nil, mgr]
    · exact Nat.le_of_eq (by rw [mgr, mgr, hsession])
  | checkpoint =>
    unfold after Database.checkpoint
    cases hc : db.mgr.checkpoint with
    | ok mgr =>
      obtain ⟨-, rfl⟩ := TransactionManager.checkpoint_ok hc
      have hpos : ∀ r ∈ [(⟨.checkpoint, 0, none⟩ : LogRecord LogOp)], r.txnId < db.mgr.nextTxnId := by
        simpa using h.pos
      exact h.append hview rfl (Nat.le_refl _) hpos
    | error e => exact h
  | reopen =>
    have hlogged : ∀ n, InLog db n → InLog db.reopened n := fun _ hn => hn
    constructor
    case pos => exact Nat.succ_pos _
    case log => exact fun r hr => lt_nextTxnIdAfterRecovery hr
    case xmin =>
      exact fun t rid tup hstored => hlogged _ (h.xmin t rid tup ((hview t rid tup).mp hstored))
    case xmax =>
      exact fun t rid tup hstored =>
        (h.xmax t rid tup ((hview t rid tup).mp hstored)).imp_right (hlogged _)

theorem Moves.issued {ok : Condition} (h : Moves C ok db db') (hi : Issued db) (hr : Recorded db)
    (hg : Good C never db) (hroom : Room db') : Issued db' := by
  induction h with
  | refl => exact hi
  | tail hmoves hmove ih =>
    have hroom₁ := hmove.room hroom
    have hg₁ := Moves.good hmoves (fun _ _ _ _ => fits_never C _ _ _) hg hroom₁
    exact (ih hroom₁).move hmove (Moves.recorded hmoves hr hg hroom₁) hg₁ hroom

/-- In every state that is reached, the next id is a new one. -/
theorem Reachable.issued (h : Reachable C db) (hroom : Room db) : Issued db := by
  induction h with
  | fresh =>
    have hnone : ∀ t rid tup, ¬Stored Database.fresh t rid tup := by
      rintro t rid tup ⟨vs, hvs, -⟩
      rw [versions_eq_error rfl] at hvs
      cases hvs
    exact ⟨Nat.one_pos, nofun, fun t rid tup h => absurd h (hnone t rid tup),
      fun t rid tup h => absurd h (hnone t rid tup)⟩
  | call h step ih =>
    have hroom₁ := step.room hroom
    have hg := h.good hroom₁
    have hmoves := step.moves hg (callOk_anyStatement _ _) hroom
    exact hmoves.issued (ih hroom₁) (h.recorded hroom₁) hg hroom

end Database
end Minirel
