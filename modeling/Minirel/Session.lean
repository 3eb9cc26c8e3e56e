-- SUMMARY: Histories of begin/commit/abort calls, the manager's invariant, and snapshot isolation of the visibility rule.
import Minirel.Transaction
import Mathlib.Logic.Function.Basic

/-!
# Sessions

A `Session` is a transaction manager together with the `Transaction` objects it
has handed out, each found by its id. `Session.run` plays a history of calls.

The manager decides "committed before `S` began" from an id comparison, a frozen
active set and a growing aborted set. `Session.Inv` ties these to the states of
the handles; `Session.committedBefore_iff` ties them to the order of events.
-/

namespace Minirel

variable {π : Type}

structure Session (π : Type) where
  mgr : TransactionManager π
  txns : Nat → Option Transaction

inductive TxnCall where
  | begin
  | commit (t : Nat)
  | abort (t : Nat)
  deriving DecidableEq, Repr

namespace Session

def init (wal : WriteAheadLog π) (nextTxnId : Nat) (abortedXids : Finset Nat) : Session π :=
  ⟨.init wal nextTxnId abortedXids, fun _ => none⟩

/-- A fresh manager over an empty log. -/
def fresh : Session π := .init .empty 1 ∅

/-- The manager and the handles after a call on the manager: the handle it
    returns, if any, replaces the one with the same id. -/
def settle (s : Session π) : Except PyError Transaction × TransactionManager π → Session π
  | (.ok txn, mgr) => ⟨mgr, Function.update s.txns txn.txnId (some txn)⟩
  | (.error _, mgr) => { s with mgr }

/-- One call. A commit or abort needs a handle to be called on. -/
def step (s : Session π) : TxnCall → Session π
  | .begin => s.settle s.mgr.begin
  | .commit t =>
    match s.txns t with
    | none => s
    | some txn => s.settle (s.mgr.commit txn)
  | .abort t =>
    match s.txns t with
    | none => s
    | some txn => s.settle (s.mgr.abort txn)

def run (s : Session π) (h : List TxnCall) : Session π := h.foldl step s

@[simp] theorem run_nil (s : Session π) : s.run [] = s := rfl

@[simp] theorem run_append (s : Session π) (h h' : List TxnCall) :
    s.run (h ++ h') = (s.run h).run h' := List.foldl_append

@[simp] theorem run_singleton (s : Session π) (c : TxnCall) : s.run [c] = s.step c := rfl

/-! ## What a call can do -/

/-- The handle a successful `begin` returns. -/
def newTxn (s : Session π) : Transaction :=
  { txnId := s.mgr.nextTxnId, snapshot := ⟨s.mgr.nextTxnId, s.mgr.activeXids⟩ }

/-- Every effect a call has on the ids and the handles; the log is left open. -/
inductive Effect (s s' : Session π) : Prop where
  | begun
      (hlt : s.mgr.nextTxnId < 2 ^ 32)
      (next : s'.mgr.nextTxnId = s.mgr.nextTxnId + 1)
      (active : s'.mgr.activeXids = insert s.mgr.nextTxnId s.mgr.activeXids)
      (aborted : s'.mgr.abortedXids = s.mgr.abortedXids)
      (txns : s'.txns = Function.update s.txns s.mgr.nextTxnId (some s.newTxn))
  | refused
      (next : s'.mgr.nextTxnId = s.mgr.nextTxnId + 1)
      (active : s'.mgr.activeXids = insert s.mgr.nextTxnId s.mgr.activeXids)
      (aborted : s'.mgr.abortedXids = s.mgr.abortedXids)
      (txns : s'.txns = s.txns)
  | committed (txn : Transaction)
      (hstate : txn.state = .active)
      (next : s'.mgr.nextTxnId = s.mgr.nextTxnId)
      (active : s'.mgr.activeXids = s.mgr.activeXids.erase txn.txnId)
      (aborted : s'.mgr.abortedXids = s.mgr.abortedXids)
      (txns : s'.txns = Function.update s.txns txn.txnId (some { txn with state := .committed }))
      (hmem : ∃ t, s.txns t = some txn)
  | aborted (txn : Transaction)
      (hstate : txn.state = .active)
      (next : s'.mgr.nextTxnId = s.mgr.nextTxnId)
      (active : s'.mgr.activeXids = s.mgr.activeXids.erase txn.txnId)
      (aborted : s'.mgr.abortedXids = insert txn.txnId s.mgr.abortedXids)
      (txns : s'.txns = Function.update s.txns txn.txnId (some { txn with state := .aborted }))
      (hmem : ∃ t, s.txns t = some txn)
  | unchanged
      (next : s'.mgr.nextTxnId = s.mgr.nextTxnId)
      (active : s'.mgr.activeXids = s.mgr.activeXids)
      (aborted : s'.mgr.abortedXids = s.mgr.abortedXids)
      (txns : s'.txns = s.txns)

theorem begin_effect (s : Session π) : Effect s (s.settle s.mgr.begin) := by
  cases h : ({ s.mgr with
      nextTxnId := s.mgr.nextTxnId + 1,
      activeXids := insert s.mgr.nextTxnId s.mgr.activeXids } : TransactionManager π).wal.logBegin
        s.mgr.nextTxnId with
  | error e =>
    have hb : s.mgr.begin = (.error e, { s.mgr with
        nextTxnId := s.mgr.nextTxnId + 1,
        activeXids := insert s.mgr.nextTxnId s.mgr.activeXids }) := by
      simp only [TransactionManager.begin, h]
    rw [hb]
    exact .refused rfl rfl rfl rfl
  | ok wal =>
    have hb : s.mgr.begin = (.ok s.newTxn, { s.mgr with
        wal,
        nextTxnId := s.mgr.nextTxnId + 1,
        activeXids := insert s.mgr.nextTxnId s.mgr.activeXids }) := by
      simp only [TransactionManager.begin, h]
      rfl
    rw [hb]
    exact .begun (WriteAheadLog.append_ok h).1 rfl rfl rfl rfl

theorem commit_effect (s : Session π) {t : Nat} {txn : Transaction} (ht : s.txns t = some txn) :
    Effect s (s.settle (s.mgr.commit txn)) := by
  unfold TransactionManager.commit
  split
  · exact .unchanged rfl rfl rfl rfl
  · rename_i hs
    split
    · exact .unchanged rfl rfl rfl rfl
    · exact .committed txn (not_not.mp hs) rfl rfl rfl rfl ⟨t, ht⟩

theorem abort_effect (s : Session π) {t : Nat} {txn : Transaction} (ht : s.txns t = some txn) :
    Effect s (s.settle (s.mgr.abort txn)) := by
  unfold TransactionManager.abort
  split
  · exact .unchanged rfl rfl rfl rfl
  · rename_i hs
    split
    · exact .unchanged rfl rfl rfl rfl
    · exact .aborted txn (not_not.mp hs) rfl rfl rfl rfl ⟨t, ht⟩

theorem step_effect (s : Session π) (c : TxnCall) : Effect s (s.step c) := by
  cases c with
  | begin => exact s.begin_effect
  | commit t =>
    simp only [step]
    split
    · exact .unchanged rfl rfl rfl rfl
    · rename_i txn ht
      exact s.commit_effect ht
  | abort t =>
    simp only [step]
    split
    · exact .unchanged rfl rfl rfl rfl
    · rename_i txn ht
      exact s.abort_effect ht

/-- A transaction once aborted stays so. -/
theorem abortedXids_subset (s : Session π) (c : TxnCall) :
    s.mgr.abortedXids ⊆ (s.step c).mgr.abortedXids := by
  cases s.step_effect c with
  | begun _ _ _ aborted _ => rw [aborted]
  | refused _ _ aborted _ => rw [aborted]
  | committed _ _ _ _ aborted _ _ => rw [aborted]
  | aborted _ _ _ _ aborted _ _ =>
    rw [aborted]
    exact Finset.subset_insert _ _
  | unchanged _ _ aborted _ => rw [aborted]

theorem step_begin {s : Session π} (h : s.mgr.nextTxnId < 2 ^ 32) :
    s.step .begin =
      ⟨{ s.mgr with
          wal := { s.mgr.wal with records := s.mgr.wal.records ++ [⟨.begin, s.mgr.nextTxnId, none⟩] }
          nextTxnId := s.mgr.nextTxnId + 1
          activeXids := insert s.mgr.nextTxnId s.mgr.activeXids },
        Function.update s.txns s.mgr.nextTxnId (some s.newTxn)⟩ := by
  simp only [step, TransactionManager.begin, WriteAheadLog.logBegin, WriteAheadLog.append, h,
    if_true]
  rfl

/-- Everything `begin` can do: the log refuses an id that does not fit. -/
theorem step_begin_cases (s : Session π) :
    (s.mgr.nextTxnId < 2 ^ 32 ∧ s.step .begin =
      ⟨{ s.mgr with
          wal := { s.mgr.wal with records := s.mgr.wal.records ++ [⟨.begin, s.mgr.nextTxnId, none⟩] }
          nextTxnId := s.mgr.nextTxnId + 1
          activeXids := insert s.mgr.nextTxnId s.mgr.activeXids },
        Function.update s.txns s.mgr.nextTxnId (some s.newTxn)⟩) ∨
    (2 ^ 32 ≤ s.mgr.nextTxnId ∧ s.step .begin =
      { s with mgr := { s.mgr with
          nextTxnId := s.mgr.nextTxnId + 1
          activeXids := insert s.mgr.nextTxnId s.mgr.activeXids } }) := by
  by_cases h : s.mgr.nextTxnId < 2 ^ 32
  · exact .inl ⟨h, step_begin h⟩
  · refine .inr ⟨not_lt.mp h, ?_⟩
    simp only [step, TransactionManager.begin, WriteAheadLog.logBegin,
      WriteAheadLog.append_refused _ h]
    rfl

/-- Everything `commit` can do. -/
theorem step_commit_cases (s : Session π) (t : Nat) :
    s.step (.commit t) = s ∨ ∃ txn, s.txns t = some txn ∧ txn.state = .active ∧
      s.step (.commit t) =
        ⟨{ s.mgr with
            wal := ⟨s.mgr.wal.records ++ [⟨.commit, txn.txnId, none⟩], s.mgr.wal.records.length + 1⟩
            activeXids := s.mgr.activeXids.erase txn.txnId },
          Function.update s.txns txn.txnId (some { txn with state := .committed })⟩ := by
  cases ht : s.txns t with
  | none => exact .inl (by simp only [step, ht])
  | some txn =>
    by_cases hact : txn.state = .active
    · by_cases hlt : txn.txnId < 2 ^ 32
      · refine .inr ⟨txn, rfl, hact, ?_⟩
        simp only [step, ht, TransactionManager.commit, hact, ne_eq, not_true_eq_false, if_false,
          WriteAheadLog.logCommit, WriteAheadLog.append_eq _ hlt, bind, Except.bind, pure,
          Except.pure, WriteAheadLog.flush, settle, List.length_append, List.length_singleton]
      · refine .inl ?_
        simp only [step, ht, TransactionManager.commit, hact, ne_eq, not_true_eq_false, if_false,
          WriteAheadLog.logCommit, WriteAheadLog.append_refused _ hlt, bind, Except.bind, settle]
    · refine .inl ?_
      simp only [step, ht, TransactionManager.commit, ne_eq, hact, not_false_eq_true, if_true,
        settle]

/-- Everything `abort` can do. -/
theorem step_abort_cases (s : Session π) (t : Nat) :
    s.step (.abort t) = s ∨ ∃ txn, s.txns t = some txn ∧ txn.state = .active ∧
      s.step (.abort t) =
        ⟨{ s.mgr with
            wal := { s.mgr.wal with records := s.mgr.wal.records ++ [⟨.abort, txn.txnId, none⟩] }
            activeXids := s.mgr.activeXids.erase txn.txnId
            abortedXids := insert txn.txnId s.mgr.abortedXids },
          Function.update s.txns txn.txnId (some { txn with state := .aborted })⟩ := by
  cases ht : s.txns t with
  | none => exact .inl (by simp only [step, ht])
  | some txn =>
    by_cases hact : txn.state = .active
    · by_cases hlt : txn.txnId < 2 ^ 32
      · refine .inr ⟨txn, rfl, hact, ?_⟩
        simp only [step, ht, TransactionManager.abort, hact, ne_eq, not_true_eq_false, if_false,
          WriteAheadLog.logAbort, WriteAheadLog.append_eq _ hlt, settle]
      · refine .inl ?_
        simp only [step, ht, TransactionManager.abort, hact, ne_eq, not_true_eq_false, if_false,
          WriteAheadLog.logAbort, WriteAheadLog.append_refused _ hlt, settle]
    · refine .inl ?_
      simp only [step, ht, TransactionManager.abort, ne_eq, hact, not_false_eq_true, if_true,
        settle]

theorem mem_abortedXids_step_abort {s : Session π} {t : Nat} {txn : Transaction}
    (ht : s.txns t = some txn) (hact : txn.state = .active) (hlt : txn.txnId < 2 ^ 32) :
    txn.txnId ∈ (s.step (.abort t)).mgr.abortedXids := by
  simp only [step, ht, TransactionManager.abort, hact, ne_eq, not_true_eq_false, if_false,
    WriteAheadLog.logAbort, WriteAheadLog.append_eq _ hlt, settle, Finset.mem_insert, true_or]

/-! ## The manager's invariant -/

/-- What the manager's sets say about the handles it has given out. -/
structure Inv (s : Session π) : Prop where
  /-- A handle is found under its own id, which is its snapshot's too. -/
  handle : ∀ {t x}, s.txns t = some x →
    x.txnId = t ∧ x.snapshot.xid = t ∧ t < s.mgr.nextTxnId ∧ t < 2 ^ 32
  active_lt : ∀ {t}, t ∈ s.mgr.activeXids → t < s.mgr.nextTxnId
  aborted_lt : ∀ {t}, t ∈ s.mgr.abortedXids → t < s.mgr.nextTxnId
  active_iff : ∀ {t x}, s.txns t = some x → (x.state = .active ↔ t ∈ s.mgr.activeXids)
  aborted_iff : ∀ {t x}, s.txns t = some x → (x.state = .aborted ↔ t ∈ s.mgr.abortedXids)
  active_not_aborted : ∀ {t}, t ∈ s.mgr.activeXids → t ∉ s.mgr.abortedXids
  /-- A snapshot's active set holds earlier ids only ... -/
  snapshot_lt : ∀ {t x u}, s.txns t = some x → u ∈ x.snapshot.activeXids → u < t
  /-- ... and at least the earlier ids that are still active. -/
  snapshot_active : ∀ {t x u}, s.txns t = some x → u ∈ s.mgr.activeXids → u < t →
    u ∈ x.snapshot.activeXids

theorem inv_init (wal : WriteAheadLog π) {n : Nat} {aborted : Finset Nat}
    (h : ∀ t ∈ aborted, t < n) : (init wal n aborted).Inv where
  handle h := by simp [init] at h
  active_lt h := by simp [init, TransactionManager.init] at h
  aborted_lt ht := h _ (by simpa [init, TransactionManager.init] using ht)
  active_iff h := by simp [init] at h
  aborted_iff h := by simp [init] at h
  active_not_aborted h := by simp [init, TransactionManager.init] at h
  snapshot_lt h := by simp [init] at h
  snapshot_active h := by simp [init] at h

/-- A new id is larger than all ids in use, so its snapshot is right by
    construction. -/
private theorem Inv.begun {s s' : Session π} (hi : s.Inv) (hlt : s.mgr.nextTxnId < 2 ^ 32)
    (next : s'.mgr.nextTxnId = s.mgr.nextTxnId + 1)
    (active : s'.mgr.activeXids = insert s.mgr.nextTxnId s.mgr.activeXids)
    (aborted : s'.mgr.abortedXids = s.mgr.abortedXids)
    (txns : s'.txns = Function.update s.txns s.mgr.nextTxnId (some s.newTxn)) : s'.Inv := by
  have hnew : ∀ {t x}, s'.txns t = some x →
      (t = s.mgr.nextTxnId ∧ x = s.newTxn) ∨ (t ≠ s.mgr.nextTxnId ∧ s.txns t = some x) := by
    intro t x h
    rw [txns] at h
    by_cases ht : t = s.mgr.nextTxnId
    · subst ht
      rw [Function.update_self] at h
      exact .inl ⟨rfl, (Option.some.inj h).symm⟩
    · rw [Function.update_of_ne ht] at h
      exact .inr ⟨ht, h⟩
  have hfresh : s.mgr.nextTxnId ∉ s.mgr.abortedXids := fun h => (hi.aborted_lt h).false
  constructor
  case handle =>
    intro t x h
    obtain ⟨rfl, rfl⟩ | ⟨_, h⟩ := hnew h
    · exact ⟨rfl, rfl, by omega, hlt⟩
    · obtain ⟨h₁, h₂, h₃, h₄⟩ := hi.handle h
      exact ⟨h₁, h₂, by omega, h₄⟩
  case active_lt =>
    intro t h
    rw [active, Finset.mem_insert] at h
    obtain rfl | h := h
    · omega
    · have := hi.active_lt h
      omega
  case aborted_lt =>
    intro t h
    rw [aborted] at h
    have := hi.aborted_lt h
    omega
  case active_iff =>
    intro t x h
    rw [active, Finset.mem_insert]
    obtain ⟨rfl, rfl⟩ | ⟨hne, h⟩ := hnew h
    · simp [newTxn]
    · rw [hi.active_iff h]
      simp [hne]
  case aborted_iff =>
    intro t x h
    rw [aborted]
    obtain ⟨rfl, rfl⟩ | ⟨_, h⟩ := hnew h
    · simp [newTxn, hfresh]
    · exact hi.aborted_iff h
  case active_not_aborted =>
    intro t h
    rw [active, Finset.mem_insert] at h
    rw [aborted]
    obtain rfl | h := h
    · exact hfresh
    · exact hi.active_not_aborted h
  case snapshot_lt =>
    intro t x u h hu
    obtain ⟨rfl, rfl⟩ | ⟨_, h⟩ := hnew h
    · exact hi.active_lt hu
    · exact hi.snapshot_lt h hu
  case snapshot_active =>
    intro t x u h hu hlt
    rw [active, Finset.mem_insert] at hu
    obtain ⟨rfl, rfl⟩ | ⟨_, h⟩ := hnew h
    · obtain rfl | hu := hu
      · exact absurd hlt (lt_irrefl _)
      · exact hu
    · obtain rfl | hu := hu
      · have := (hi.handle h).2.2.1
        omega
      · exact hi.snapshot_active h hu hlt

private theorem Inv.refused {s s' : Session π} (hi : s.Inv)
    (next : s'.mgr.nextTxnId = s.mgr.nextTxnId + 1)
    (active : s'.mgr.activeXids = insert s.mgr.nextTxnId s.mgr.activeXids)
    (aborted : s'.mgr.abortedXids = s.mgr.abortedXids)
    (txns : s'.txns = s.txns) : s'.Inv := by
  have hne : ∀ {t x}, s.txns t = some x → t ≠ s.mgr.nextTxnId := by
    intro t x h
    have := (hi.handle h).2.2.1
    omega
  constructor
  case handle =>
    intro t x h
    rw [txns] at h
    obtain ⟨h₁, h₂, h₃, h₄⟩ := hi.handle h
    exact ⟨h₁, h₂, by omega, h₄⟩
  case active_lt =>
    intro t h
    rw [active, Finset.mem_insert] at h
    obtain rfl | h := h
    · omega
    · have := hi.active_lt h
      omega
  case aborted_lt =>
    intro t h
    rw [aborted] at h
    have := hi.aborted_lt h
    omega
  case active_iff =>
    intro t x h
    rw [txns] at h
    rw [active, Finset.mem_insert, hi.active_iff h]
    simp [hne h]
  case aborted_iff =>
    intro t x h
    rw [txns] at h
    rw [aborted]
    exact hi.aborted_iff h
  case active_not_aborted =>
    intro t h
    rw [active, Finset.mem_insert] at h
    rw [aborted]
    obtain rfl | h := h
    · exact fun h => (hi.aborted_lt h).false
    · exact hi.active_not_aborted h
  case snapshot_lt =>
    intro t x u h hu
    rw [txns] at h
    exact hi.snapshot_lt h hu
  case snapshot_active =>
    intro t x u h hu hlt
    rw [txns] at h
    rw [active, Finset.mem_insert] at hu
    obtain rfl | hu := hu
    · have := (hi.handle h).2.2.1
      omega
    · exact hi.snapshot_active h hu hlt

/-- An active transaction ends: its handle changes state and its id leaves the
    active set, for the aborted set if it aborts. -/
private theorem Inv.ended {s s' : Session π} (hi : s.Inv) {txn : Transaction} {st : TxnState}
    (hst : st ≠ .active) (hmem : ∃ t, s.txns t = some txn)
    (next : s'.mgr.nextTxnId = s.mgr.nextTxnId)
    (active : s'.mgr.activeXids = s.mgr.activeXids.erase txn.txnId)
    (aborted : ∀ t, t ∈ s'.mgr.abortedXids ↔
      t ∈ s.mgr.abortedXids ∨ (st = .aborted ∧ t = txn.txnId))
    (txns : s'.txns = Function.update s.txns txn.txnId (some { txn with state := st }))
    (hstate : txn.state = .active) : s'.Inv := by
  obtain ⟨t₀, ht₀⟩ := hmem
  obtain ⟨hid, hxid, hlt₀, hlt32⟩ := hi.handle ht₀
  subst hid
  have hact₀ : txn.txnId ∈ s.mgr.activeXids := (hi.active_iff ht₀).mp hstate
  have hold : ∀ {t x}, s'.txns t = some x →
      (t = txn.txnId ∧ x = { txn with state := st }) ∨ (t ≠ txn.txnId ∧ s.txns t = some x) := by
    intro t x h
    rw [txns] at h
    by_cases ht : t = txn.txnId
    · subst ht
      rw [Function.update_self] at h
      exact .inl ⟨rfl, (Option.some.inj h).symm⟩
    · rw [Function.update_of_ne ht] at h
      exact .inr ⟨ht, h⟩
  constructor
  case handle =>
    intro t x h
    rw [next]
    obtain ⟨rfl, rfl⟩ | ⟨_, h⟩ := hold h
    · exact ⟨rfl, hxid, hlt₀, hlt32⟩
    · exact hi.handle h
  case active_lt =>
    intro t h
    rw [active] at h
    rw [next]
    exact hi.active_lt (Finset.mem_of_mem_erase h)
  case aborted_lt =>
    intro t h
    rw [next]
    obtain h | ⟨_, rfl⟩ := (aborted t).mp h
    · exact hi.aborted_lt h
    · exact hlt₀
  case active_iff =>
    intro t x h
    rw [active, Finset.mem_erase]
    obtain ⟨rfl, rfl⟩ | ⟨hne, h⟩ := hold h
    · simp [hst]
    · rw [hi.active_iff h]
      simp [hne]
  case aborted_iff =>
    intro t x h
    rw [aborted]
    obtain ⟨rfl, rfl⟩ | ⟨hne, h⟩ := hold h
    · simp [hi.active_not_aborted hact₀]
    · rw [hi.aborted_iff h]
      simp [hne]
  case active_not_aborted =>
    intro t h hab
    rw [active, Finset.mem_erase] at h
    obtain hab | ⟨_, rfl⟩ := (aborted t).mp hab
    · exact hi.active_not_aborted h.2 hab
    · exact h.1 rfl
  case snapshot_lt =>
    intro t x u h hu
    obtain ⟨rfl, rfl⟩ | ⟨_, h⟩ := hold h
    · exact hi.snapshot_lt ht₀ hu
    · exact hi.snapshot_lt h hu
  case snapshot_active =>
    intro t x u h hu hlt
    rw [active, Finset.mem_erase] at hu
    obtain ⟨rfl, rfl⟩ | ⟨_, h⟩ := hold h
    · exact hi.snapshot_active (x := txn) ht₀ hu.2 hlt
    · exact hi.snapshot_active h hu.2 hlt

theorem Inv.effect {s s' : Session π} (hi : s.Inv) (he : Effect s s') : s'.Inv := by
  cases he with
  | begun hlt next active aborted txns => exact hi.begun hlt next active aborted txns
  | refused next active aborted txns => exact hi.refused next active aborted txns
  | committed txn hstate next active aborted txns hmem =>
    exact hi.ended (by simp) hmem next active (by simp [aborted]) txns hstate
  | aborted txn hstate next active aborted txns hmem =>
    exact hi.ended (by simp) hmem next active (by simp [aborted, or_comm]) txns hstate
  | unchanged next active aborted txns =>
    constructor
    case handle => rw [txns, next]; exact hi.handle
    case active_lt => rw [active, next]; exact hi.active_lt
    case aborted_lt => rw [aborted, next]; exact hi.aborted_lt
    case active_iff => rw [txns, active]; exact hi.active_iff
    case aborted_iff => rw [txns, aborted]; exact hi.aborted_iff
    case active_not_aborted => rw [active, aborted]; exact hi.active_not_aborted
    case snapshot_lt => rw [txns]; exact hi.snapshot_lt
    case snapshot_active => rw [txns, active]; exact hi.snapshot_active

theorem Inv.step {s : Session π} (hi : s.Inv) (c : TxnCall) : (s.step c).Inv :=
  hi.effect (s.step_effect c)

theorem Inv.run {s : Session π} (hi : s.Inv) (h : List TxnCall) : (s.run h).Inv := by
  induction h using List.reverseRecOn with
  | nil => exact hi
  | append_singleton h c ih =>
    rw [run_append, run_singleton]
    exact ih.step c

/-- A snapshot does not see what another transaction that is still active does. -/
theorem Inv.not_sees_active {s : Session π} (hi : s.Inv) {t u : Nat} {x : Transaction}
    (hx : s.txns u = some x) (ht : t ∈ s.mgr.activeXids) (hne : t ≠ u) :
    ¬(t = x.snapshot.xid ∨ x.snapshot.committedBefore t = true) := by
  rw [Snapshot.committedBefore_iff, (hi.handle hx).2.1]
  rintro (h | ⟨hlt, hnot⟩)
  · exact hne h
  · exact hnot (hi.snapshot_active hx ht hlt)

/-- Only `abort` adds to the aborted set, and only an active id. -/
theorem Inv.abortedXids_step {s : Session π} (hi : s.Inv) (c : TxnCall) :
    (s.step c).mgr.abortedXids = s.mgr.abortedXids ∨
      ∃ t, c = .abort t ∧ t ∈ s.mgr.activeXids ∧
        (s.step c).mgr.abortedXids = insert t s.mgr.abortedXids := by
  cases c with
  | begin =>
    left
    simp only [Session.step, TransactionManager.begin]
    split <;> rfl
  | commit t =>
    left
    simp only [Session.step, TransactionManager.commit]
    split
    · rfl
    · split
      · rfl
      · split <;> rfl
  | abort t =>
    simp only [Session.step, TransactionManager.abort]
    split
    · exact .inl rfl
    · rename_i txn htxn
      split
      · exact .inl rfl
      · rename_i hst
        obtain rfl := (hi.handle htxn).1
        split
        · exact .inl rfl
        · exact .inr ⟨_, rfl, (hi.active_iff htxn).mp (not_not.mp hst), rfl⟩

/-! ## Time

`Later s s'` is what a caller may rely on between two moments of one history. -/

structure Later (s s' : Session π) : Prop where
  next_le : s.mgr.nextTxnId ≤ s'.mgr.nextTxnId
  /-- A handle keeps its snapshot, and its state once it has ended. -/
  keep : ∀ {t x}, s.txns t = some x → ∃ x', s'.txns t = some x' ∧
    x'.snapshot = x.snapshot ∧ (x.state ≠ .active → x'.state = x.state)
  /-- New handles get new ids. -/
  new_le : ∀ {t x}, s.txns t = none → s'.txns t = some x → s.mgr.nextTxnId ≤ t

theorem Later.refl (s : Session π) : Later s s where
  next_le := le_refl _
  keep h := ⟨_, h, rfl, fun _ => rfl⟩
  new_le h h' := by rw [h] at h'; cases h'

theorem Later.trans {s s' s'' : Session π} (h₁ : Later s s') (h₂ : Later s' s'') : Later s s'' where
  next_le := h₁.next_le.trans h₂.next_le
  keep {t x} h := by
    obtain ⟨x', h', hs', he'⟩ := h₁.keep h
    obtain ⟨x'', h'', hs'', he''⟩ := h₂.keep h'
    refine ⟨x'', h'', hs''.trans hs', fun hx => ?_⟩
    have hx' := he' hx
    rw [he'' (hx' ▸ hx), hx']
  new_le {t x} h h'' := by
    cases h' : s'.txns t with
    | none => exact h₁.next_le.trans (h₂.new_le h' h'')
    | some x' => exact h₁.new_le h h'

private theorem Later.ended {s s' : Session π} (hi : s.Inv) {txn : Transaction} {st : TxnState}
    (hmem : ∃ t, s.txns t = some txn) (hstate : txn.state = .active)
    (next : s'.mgr.nextTxnId = s.mgr.nextTxnId)
    (txns : s'.txns = Function.update s.txns txn.txnId (some { txn with state := st })) :
    Later s s' := by
  obtain ⟨t₀, ht₀⟩ := hmem
  obtain rfl := (hi.handle ht₀).1
  constructor
  case next_le => exact next.ge
  case keep =>
    intro t x h
    rw [txns]
    by_cases ht : t = txn.txnId
    · subst ht
      rw [h] at ht₀
      cases ht₀
      exact ⟨_, Function.update_self .., rfl, fun hx => absurd hstate hx⟩
    · exact ⟨x, by rwa [Function.update_of_ne ht], rfl, fun _ => rfl⟩
  case new_le =>
    intro t x h h'
    rw [txns] at h'
    by_cases ht : t = txn.txnId
    · subst ht
      rw [h] at ht₀
      cases ht₀
    · rw [Function.update_of_ne ht, h] at h'
      cases h'

theorem Effect.later {s s' : Session π} (hi : s.Inv) (he : Effect s s') : Later s s' := by
  cases he with
  | begun hlt next active aborted txns =>
    constructor
    case next_le => omega
    case keep =>
      intro t x h
      have hne : t ≠ s.mgr.nextTxnId := by
        have := (hi.handle h).2.2.1
        omega
      exact ⟨x, by rwa [txns, Function.update_of_ne hne], rfl, fun _ => rfl⟩
    case new_le =>
      intro t x h h'
      rw [txns] at h'
      by_cases ht : t = s.mgr.nextTxnId
      · exact ht.ge
      · rw [Function.update_of_ne ht, h] at h'
        cases h'
  | refused next active aborted txns =>
    constructor
    case next_le => omega
    case keep => intro t x h; exact ⟨x, by rwa [txns], rfl, fun _ => rfl⟩
    case new_le => intro t x h h'; rw [txns, h] at h'; cases h'
  | committed txn hstate next active aborted txns hmem =>
    exact .ended hi hmem hstate next txns
  | aborted txn hstate next active aborted txns hmem =>
    exact .ended hi hmem hstate next txns
  | unchanged next active aborted txns =>
    constructor
    case next_le => exact next.ge
    case keep => intro t x h; exact ⟨x, by rwa [txns], rfl, fun _ => rfl⟩
    case new_le => intro t x h h'; rw [txns, h] at h'; cases h'

theorem run_later {s : Session π} (hi : s.Inv) (h : List TxnCall) : Later s (s.run h) := by
  induction h using List.reverseRecOn with
  | nil => exact .refl s
  | append_singleton h c ih =>
    rw [run_append, run_singleton]
    exact ih.trans ((step_effect _ c).later (hi.run h))

private theorem handle_origin_ended {s s' : Session π} (hi : s.Inv) {txn : Transaction}
    {st : TxnState} (hmem : ∃ t, s.txns t = some txn)
    (txns : s'.txns = Function.update s.txns txn.txnId (some { txn with state := st })) {t : Nat}
    {x : Transaction} (hx : s'.txns t = some x) :
    ∃ x', s.txns t = some x' ∧ x'.snapshot = x.snapshot := by
  obtain ⟨t₀, ht₀⟩ := hmem
  obtain rfl := (hi.handle ht₀).1
  rw [txns] at hx
  by_cases ht : t = txn.txnId
  · subst ht
    rw [Function.update_self] at hx
    cases hx
    exact ⟨txn, ht₀, rfl⟩
  · rw [Function.update_of_ne ht] at hx
    exact ⟨x, hx, rfl⟩

/-- A handle was there before the call, with the same snapshot, or it is the one
    that a `begin` has just made. -/
theorem Effect.handle_origin {s s' : Session π} (hi : s.Inv) (he : Effect s s') {t : Nat}
    {x : Transaction} (hx : s'.txns t = some x) :
    (∃ x', s.txns t = some x' ∧ x'.snapshot = x.snapshot) ∨
      (s.txns t = none ∧ t = s.mgr.nextTxnId ∧ x = s.newTxn) := by
  cases he with
  | begun hlt next active aborted txns =>
    rw [txns] at hx
    by_cases ht : t = s.mgr.nextTxnId
    · subst ht
      rw [Function.update_self] at hx
      refine .inr ⟨?_, rfl, (Option.some.inj hx).symm⟩
      cases hold : s.txns s.mgr.nextTxnId with
      | none => rfl
      | some y => exact absurd (hi.handle hold).2.2.1 (lt_irrefl _)
    · rw [Function.update_of_ne ht] at hx
      exact .inl ⟨x, hx, rfl⟩
  | refused next active aborted txns => rw [txns] at hx; exact .inl ⟨x, hx, rfl⟩
  | committed txn hstate next active aborted txns hmem =>
    exact .inl (handle_origin_ended hi hmem txns hx)
  | aborted txn hstate next active aborted txns hmem =>
    exact .inl (handle_origin_ended hi hmem txns hx)
  | unchanged next active aborted txns => rw [txns] at hx; exact .inl ⟨x, hx, rfl⟩

/-- The moment a transaction began: its id was the next one, its snapshot's
    active set was the manager's. -/
theorem begin_moment {s : Session π} (hi : s.Inv) (h0 : ∀ t, s.txns t = none)
    {h : List TxnCall} {t : Nat} {x : Transaction} (hx : (s.run h).txns t = some x) :
    ∃ h₁ c h₂, h = h₁ ++ c :: h₂ ∧ (s.run h₁).txns t = none ∧
      (∃ x', ((s.run h₁).step c).txns t = some x') ∧
      (s.run h₁).mgr.nextTxnId = t ∧ x.snapshot.activeXids = (s.run h₁).mgr.activeXids := by
  induction h using List.reverseRecOn generalizing x with
  | nil => rw [run_nil, h0] at hx; cases hx
  | append_singleton h c ih =>
    rw [run_append, run_singleton] at hx
    obtain ⟨x', hx', hs⟩ | ⟨hnone, ht, rfl⟩ :=
      (step_effect (s.run h) c).handle_origin (hi.run h) hx
    · obtain ⟨h₁, c', h₂, rfl, hn, hb, hnext, hact⟩ := ih hx'
      exact ⟨h₁, c', h₂ ++ [c], by simp, hn, hb, hnext, by rw [← hs, hact]⟩
    · exact ⟨h, c, [], by simp, hnone, ⟨_, hx⟩, ht.symm, rfl⟩

/-- `t` had committed at a moment of the history at which `u` had not begun. -/
def CommittedBefore (s : Session π) (h : List TxnCall) (t u : Nat) : Prop :=
  ∃ h₁ h₂, h = h₁ ++ h₂ ∧ (s.run h₁).txns u = none ∧
    ∃ x, (s.run h₁).txns t = some x ∧ x.state = .committed

/-- The manager's indirect test for "committed before": the id is smaller, not in
    the frozen active set, and the transaction is one that committed. -/
theorem committedBefore_iff {s : Session π} (hi : s.Inv) (h0 : ∀ t, s.txns t = none)
    {h : List TxnCall} {t u : Nat} {x y : Transaction} (hu : (s.run h).txns u = some x)
    (ht : (s.run h).txns t = some y) :
    s.CommittedBefore h t u ↔
      (t < u ∧ t ∉ x.snapshot.activeXids) ∧ y.state = .committed := by
  obtain ⟨g₁, c, g₂, rfl, hnone, ⟨x', hx'⟩, hnext, hact⟩ := begin_moment hi h0 hu
  have hig := hi.run g₁
  have hlater : Later (s.run g₁) (s.run (g₁ ++ c :: g₂)) := by
    rw [run_append]
    exact run_later hig _
  constructor
  · rintro ⟨h₁, h₂, heq, hun, z, hz, hzc⟩
    -- `h₁` ends no later than the moment `u` began
    have hpre : h₁ <+: g₁ := by
      have hp₁ : h₁ <+: g₁ ++ c :: g₂ := ⟨h₂, heq.symm⟩
      have hp₂ : g₁ ++ [c] <+: g₁ ++ c :: g₂ := ⟨g₂, by simp⟩
      rcases List.prefix_or_prefix_of_prefix hp₁ hp₂ with hp | hp
      · rcases List.prefix_concat_iff.mp hp with rfl | hp
        · rw [run_append, run_singleton, hx'] at hun
          cases hun
        · exact hp
      · obtain ⟨k, rfl⟩ := hp
        obtain ⟨x'', hx'', _⟩ := (run_later (hig.step c) k).keep hx'
        rw [run_append, run_append, run_singleton, hx''] at hun
        cases hun
    obtain ⟨k, rfl⟩ := hpre
    obtain ⟨z', hz', _, hzs⟩ := (run_later (hi.run h₁) k).keep hz
    rw [← run_append] at hz'
    have hzc' : z'.state = .committed := (hzs (by simp [hzc])).trans hzc
    obtain ⟨y', hy', _, hys⟩ := hlater.keep hz'
    rw [ht] at hy'
    cases hy'
    refine ⟨⟨hnext ▸ (hig.handle hz').2.2.1, ?_⟩, (hys (by simp [hzc'])).trans hzc'⟩
    rw [hact, ← hig.active_iff hz', hzc']
    simp
  · rintro ⟨⟨hlt, hnot⟩, hy⟩
    refine ⟨g₁, c :: g₂, rfl, hnone, ?_⟩
    cases hz : (s.run g₁).txns t with
    | none =>
      have := hlater.new_le hz ht
      omega
    | some z =>
      refine ⟨z, rfl, ?_⟩
      have hza : z.state ≠ .active := by
        rw [Ne, hig.active_iff hz, ← hact]
        exact hnot
      obtain ⟨y', hy', _, hys⟩ := hlater.keep hz
      rw [ht] at hy'
      cases hy'
      rw [← hys hza, hy]

/-- One side of the visibility rule: a transaction that began and is not aborted
    is seen exactly when it is the snapshot's own or committed before it. -/
theorem sees_iff {s : Session π} (hi : s.Inv) (h0 : ∀ t, s.txns t = none) {h : List TxnCall}
    {t u : Nat} {x y : Transaction} (hu : (s.run h).txns u = some x)
    (hx : x.state ≠ .aborted) (ht : (s.run h).txns t = some y) :
    (t ∉ (s.run h).mgr.abortedXids ∧
        (t = x.snapshot.xid ∨ x.snapshot.committedBefore t = true)) ↔
      (t = u ∨ s.CommittedBefore h t u) := by
  have hir := hi.run h
  rw [Snapshot.committedBefore_iff, (hir.handle hu).2.1, committedBefore_iff hi h0 hu ht,
    ← hir.aborted_iff ht]
  by_cases htu : t = u
  · subst htu
    rw [hu] at ht
    cases ht
    simp [hx]
  · cases hy : y.state with
    | committed => simp [htu]
    | aborted => simp [htu]
    | active =>
      -- an earlier transaction that is still active is in the frozen set
      have hact := (hir.active_iff ht).mp hy
      have hfrozen : t < u → t ∈ x.snapshot.activeXids := hir.snapshot_active hu hact
      simp only [htu, false_or, reduceCtorEq, and_false, iff_false, not_false_eq_true, true_and]
      exact fun hlt => hlt.2 (hfrozen hlt.1)

/-! ## Snapshot isolation -/

theorem fresh_inv : (fresh : Session π).Inv := inv_init _ (by simp)

/-- The visibility rule is snapshot isolation. `h` is any history and the question
    is asked after it, so the answer for `u` never changes while `u` has not
    aborted. -/
theorem isVisible_iff_snapshotIsolation {h : List TxnCall} {u xmin xmax : Nat} {x : Transaction}
    (hu : ((fresh : Session π).run h).txns u = some x) (hx : x.state ≠ .aborted)
    (hmin : ∃ y, ((fresh : Session π).run h).txns xmin = some y)
    (hmax : xmax = infinityTxn ∨ ∃ y, ((fresh : Session π).run h).txns xmax = some y) :
    ((fresh : Session π).run h).mgr.isVisible xmin xmax x.snapshot = true ↔
      (xmin = u ∨ (fresh : Session π).CommittedBefore h xmin u) ∧
      ¬(xmax ≠ infinityTxn ∧ (xmax = u ∨ (fresh : Session π).CommittedBefore h xmax u)) := by
  obtain ⟨y, hy⟩ := hmin
  rw [TransactionManager.isVisible_iff, sees_iff fresh_inv (fun _ => rfl) hu hx hy]
  refine and_congr_right fun _ => ?_
  obtain rfl | ⟨z, hz⟩ := hmax
  · simp
  · have hsees := sees_iff fresh_inv (fun _ => rfl) hu hx hz
    rw [← hsees]
    tauto

/-- A row created by a transaction that committed first is seen. -/
theorem isVisible_iff_snapshotIsolation_two :
    ((fresh : Session Unit).run [.begin, .commit 1, .begin]).mgr.isVisible 1 infinityTxn ⟨2, ∅⟩ = true ↔
      (1 = 2 ∨ (fresh : Session Unit).CommittedBefore [.begin, .commit 1, .begin] 1 2) ∧
      ¬(infinityTxn ≠ infinityTxn ∧
        (infinityTxn = 2 ∨
          (fresh : Session Unit).CommittedBefore [.begin, .commit 1, .begin] infinityTxn 2)) :=
  isVisible_iff_snapshotIsolation (x := ⟨2, ⟨2, ∅⟩, .active⟩) (by decide) (by decide)
    ⟨⟨1, ⟨1, ∅⟩, .committed⟩, by decide⟩ (.inl rfl)

end Session
end Minirel
