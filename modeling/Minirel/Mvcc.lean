-- SUMMARY: The step system of interleaved transactions over one heap, and repeatable reads.
import Minirel.Session
import Mathlib.Data.Set.Basic

/-!
# Interleaved transactions over one heap

The heap is a map from row identifiers to tuples. An action is one step of one
transaction: `begin`, `commit`, `abort`, the insertion of a version, or the
stamping of `xmax` on a version the transaction sees, after
`check_write_conflict` has passed. Actions of different transactions interleave
in any order.
-/

namespace Minirel

variable {π ρ : Type}

structure Mvcc (π ρ : Type) where
  session : Session π
  heap : RID → Option (HeapTuple ρ)

namespace Mvcc

/-- A manager opened over a log and a heap from earlier runs. -/
def init (wal : WriteAheadLog π) (nextTxnId : Nat) (abortedXids : Finset Nat)
    (heap : RID → Option (HeapTuple ρ)) : Mvcc π ρ :=
  ⟨.init wal nextTxnId abortedXids, heap⟩

inductive Action (ρ : Type) where
  | begin
  | commit (t : Nat)
  | abort (t : Nat)
  | insert (t : Nat) (rid : RID) (row : ρ)
  | stamp (t : Nat) (rid : RID)

/-- The transaction that takes the action; `begin` is taken by the new one. -/
def actor (s : Mvcc π ρ) : Action ρ → Nat
  | .begin => s.session.mgr.nextTxnId
  | .commit t => t
  | .abort t => t
  | .insert t _ _ => t
  | .stamp t _ => t

def activeTxn (s : Mvcc π ρ) (t : Nat) : Option Transaction :=
  (s.session.txns t).filter (fun txn => txn.state = .active)

/-- One action; `none` when it is not enabled or raises. -/
def step (s : Mvcc π ρ) : Action ρ → Option (Mvcc π ρ)
  | .begin => some { s with session := s.session.step .begin }
  | .commit t => some { s with session := s.session.step (.commit t) }
  | .abort t => some { s with session := s.session.step (.abort t) }
  | .insert t rid row => do
    let txn ← s.activeTxn t
    let tup ← (packTuple txn.txnId infinityTxn row).toOption
    if (s.heap rid).isNone then
      some { s with heap := Function.update s.heap rid (some tup) }
    else none
  | .stamp t rid => do
    let txn ← s.activeTxn t
    let raw ← s.heap rid
    let (xmin, xmax) := unpackTupleHeader raw
    if s.session.mgr.isVisible xmin xmax txn.snapshot then
      (s.session.mgr.checkWriteConflict txn xmax).toOption
      let new ← (withXmax raw txn.txnId).toOption
      some { s with heap := Function.update s.heap rid (some new) }
    else none

/-- The states reached from an opened database. -/
inductive Reachable : Mvcc π ρ → Prop where
  | init (wal : WriteAheadLog π) (nextTxnId : Nat) (abortedXids : Finset Nat)
      (heap : RID → Option (HeapTuple ρ)) (h : ∀ t ∈ abortedXids, t < nextTxnId) :
      Reachable (init wal nextTxnId abortedXids heap)
  | step {s s' : Mvcc π ρ} (a : Action ρ) (hs : Reachable s) (h : s.step a = some s') : Reachable s'

/-- The row versions a snapshot sees: where they are and what they hold. -/
def visible (s : Mvcc π ρ) (snapshot : Snapshot) : Set (RID × ρ) :=
  { v | ∃ tup, s.heap v.1 = some tup ∧ tup.payload = v.2 ∧
    s.session.mgr.isVisible tup.xmin tup.xmax snapshot = true }

theorem mem_visible {s : Mvcc π ρ} {snapshot : Snapshot} {v : RID × ρ} :
    v ∈ s.visible snapshot ↔ ∃ tup, s.heap v.1 = some tup ∧ tup.payload = v.2 ∧
      s.session.mgr.isVisible tup.xmin tup.xmax snapshot = true := Iff.rfl

/-! ## What an action can do -/

theorem activeTxn_eq_some {s : Mvcc π ρ} {t : Nat} {txn : Transaction} :
    s.activeTxn t = some txn ↔ s.session.txns t = some txn ∧ txn.state = .active := by
  simp [activeTxn, Option.filter_eq_some_iff]

theorem step_insert {s s' : Mvcc π ρ} {t : Nat} {rid : RID} {row : ρ}
    (h : s.step (.insert t rid row) = some s') :
    ∃ txn tup, s.session.txns t = some txn ∧ txn.state = .active ∧ s.heap rid = none ∧
      packTuple txn.txnId infinityTxn row = .ok tup ∧
      s' = { s with heap := Function.update s.heap rid (some tup) } := by
  simp only [step, Option.bind_eq_bind, Option.bind_eq_some_iff, activeTxn_eq_some,
    toOption_eq_some] at h
  obtain ⟨txn, ⟨htxn, hact⟩, tup, htup, h⟩ := h
  split at h
  · rename_i hnone
    cases h
    exact ⟨txn, tup, htxn, hact, Option.isNone_iff_eq_none.mp hnone, htup, rfl⟩
  · cases h

theorem step_stamp {s s' : Mvcc π ρ} {t : Nat} {rid : RID} (h : s.step (.stamp t rid) = some s') :
    ∃ txn raw new, s.session.txns t = some txn ∧ txn.state = .active ∧ s.heap rid = some raw ∧
      s.session.mgr.isVisible raw.xmin raw.xmax txn.snapshot = true ∧
      s.session.mgr.checkWriteConflict txn raw.xmax = .ok () ∧
      withXmax raw txn.txnId = .ok new ∧
      s' = { s with heap := Function.update s.heap rid (some new) } := by
  simp only [step, unpackTupleHeader, Option.bind_eq_bind, Option.bind_eq_some_iff,
    activeTxn_eq_some] at h
  obtain ⟨txn, ⟨htxn, hact⟩, raw, hraw, h⟩ := h
  by_cases hvis : s.session.mgr.isVisible raw.xmin raw.xmax txn.snapshot = true
  · simp only [hvis, if_true, Option.bind_eq_some_iff, toOption_eq_some, Option.some.injEq] at h
    obtain ⟨_, hconf, new, hnew, rfl⟩ := h
    exact ⟨txn, raw, new, htxn, hact, hraw, hvis, hconf, hnew, rfl⟩
  · simp [hvis] at h

theorem Reachable.inv {s : Mvcc π ρ} (h : Reachable s) : s.session.Inv := by
  induction h with
  | init wal n aborted heap h => exact Session.inv_init wal h
  | step a _ h ih =>
    cases a with
    | begin => cases h; exact Session.Inv.step ih .begin
    | commit t => cases h; exact Session.Inv.step ih (.commit t)
    | abort t => cases h; exact Session.Inv.step ih (.abort t)
    | insert t rid row =>
      obtain ⟨_, _, _, _, _, _, rfl⟩ := step_insert h
      exact ih
    | stamp t rid =>
      obtain ⟨_, _, _, _, _, _, _, _, _, rfl⟩ := step_stamp h
      exact ih

/-! ## Repeatable reads -/

/-- Two managers agree on a snapshot's visible versions when they disagree only
    about aborts that the snapshot does not see anyway. -/
theorem isVisible_congr {m m' : TransactionManager π} {xmin xmax : Nat} {snapshot : Snapshot}
    (h : ∀ t, (t = snapshot.xid ∨ snapshot.committedBefore t = true) →
      (t ∈ m'.abortedXids ↔ t ∈ m.abortedXids)) :
    m'.isVisible xmin xmax snapshot = m.isVisible xmin xmax snapshot := by
  rw [Bool.eq_iff_iff, TransactionManager.isVisible_iff, TransactionManager.isVisible_iff]
  have hmin := h xmin
  have hmax := h xmax
  tauto

/-- A call by another transaction changes no answer of the visibility test. -/
theorem isVisible_step {s : Session π} (hi : s.Inv) {u : Nat} {x : Transaction}
    (hx : s.txns u = some x) {c : TxnCall} (hc : c ≠ .abort u) (xmin xmax : Nat) :
    (s.step c).mgr.isVisible xmin xmax x.snapshot = s.mgr.isVisible xmin xmax x.snapshot := by
  apply isVisible_congr
  intro t ht
  obtain heq | ⟨t', rfl, hact, heq⟩ := hi.abortedXids_step c
  · rw [heq]
  · have hne : t' ≠ u := fun h => hc (h ▸ rfl)
    have htt' : t ≠ t' := by
      rintro rfl
      exact hi.not_sees_active hx hact hne ht
    rw [heq, Finset.mem_insert]
    simp [htt']

theorem visible_call {s : Mvcc π ρ} (hi : s.session.Inv) {u : Nat} {x : Transaction}
    (hx : s.session.txns u = some x) {c : TxnCall} (hc : c ≠ .abort u) :
    visible { s with session := s.session.step c } x.snapshot = s.visible x.snapshot := by
  ext v
  simp only [mem_visible, isVisible_step hi hx hc]

/-- Replacing or adding one tuple leaves the visible versions alone when the
    snapshot sees the same row there before and after. -/
theorem visible_update {s : Mvcc π ρ} {snapshot : Snapshot} {rid : RID} {new : HeapTuple ρ}
    (h : ∀ row, (new.payload = row ∧
        s.session.mgr.isVisible new.xmin new.xmax snapshot = true) ↔
      ∃ tup, s.heap rid = some tup ∧ tup.payload = row ∧
        s.session.mgr.isVisible tup.xmin tup.xmax snapshot = true) :
    visible { s with heap := Function.update s.heap rid (some new) } snapshot =
      s.visible snapshot := by
  ext ⟨r, row⟩
  simp only [mem_visible]
  by_cases hr : r = rid
  · subst hr
    simpa using h row
  · simp [Function.update_of_ne hr]

/-- Repeatable reads: no step of another transaction changes the row versions
    that a transaction's snapshot sees. -/
theorem visible_step_of_ne {s s' : Mvcc π ρ} {a : Action ρ} {u : Nat} {x : Transaction}
    (hs : Reachable s) (hx : s.session.txns u = some x) (h : s.step a = some s')
    (hne : s.actor a ≠ u) :
    s'.visible x.snapshot = s.visible x.snapshot := by
  have hi := hs.inv
  cases a with
  | begin => cases h; exact visible_call hi hx (by simp)
  | commit t => cases h; exact visible_call hi hx (by simp)
  | abort t => cases h; exact visible_call hi hx (fun h => hne (TxnCall.abort.inj h))
  | insert t rid row =>
    obtain ⟨txn, tup, htxn, htact, hnone, htup, rfl⟩ := step_insert h
    obtain ⟨hmin, -, -⟩ := packTuple_ok htup
    obtain rfl := (hi.handle htxn).1
    have hunseen := hi.not_sees_active hx ((hi.active_iff htxn).mp htact) hne
    -- the new version is not seen, and there was none at its place
    apply visible_update
    intro row'
    simp only [hnone, reduceCtorEq, false_and, exists_false, iff_false,
      TransactionManager.isVisible_iff, hmin]
    exact fun h => hunseen h.2.1.2
  | stamp t rid =>
    obtain ⟨txn, raw, new, htxn, htact, hraw, hvis, hconf, hnew, rfl⟩ := step_stamp h
    obtain ⟨hmin, hmax, hpay⟩ := withXmax_ok hnew
    obtain rfl := (hi.handle htxn).1
    have htmem := (hi.active_iff htxn).mp htact
    have hunseen := hi.not_sees_active hx htmem hne
    have hold := TransactionManager.checkWriteConflict_ok_iff.mp hconf
    -- neither the old stamp nor the new one deletes the version for the snapshot
    apply visible_update
    intro row'
    simp only [hraw, Option.some.injEq, exists_eq_left', TransactionManager.isVisible_iff, hmin,
      hmax, hpay]
    have holdSeen : raw.xmax = infinityTxn ∨ raw.xmax ∈ s.session.mgr.abortedXids ∨
        ¬(raw.xmax = x.snapshot.xid ∨ x.snapshot.committedBefore raw.xmax = true) := by
      obtain h | h | h := hold
      · exact .inl h
      · rw [h]; exact .inr (.inr hunseen)
      · exact .inr (.inl h)
    simp only [holdSeen, hunseen, not_false_eq_true, or_true, and_true]

/-- Two transactions have begun and the second inserts a row: the first sees what
    it saw before. -/
theorem visible_step_of_ne_insert : ∃ s s' : Mvcc Unit Nat, ∃ x,
    s.session.txns 1 = some x ∧ s.step (.insert 2 ⟨0, 0⟩ 7) = some s' ∧
      s'.visible x.snapshot = s.visible x.snapshot := by
  have h₀ : Reachable (init .empty 1 ∅ (fun _ => none) : Mvcc Unit Nat) :=
    .init _ _ _ _ (by simp)
  have h₂ := (h₀.step .begin rfl).step .begin rfl
  exact ⟨_, _, ⟨1, ⟨1, ∅⟩, .active⟩, by decide, rfl,
    visible_step_of_ne (a := .insert 2 ⟨0, 0⟩ 7) (u := 1) h₂ (by decide) rfl (by decide)⟩

end Mvcc
end Minirel
