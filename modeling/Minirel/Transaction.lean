-- SUMMARY: The transaction manager: snapshots, begin/commit/abort, the visibility rule and the write-conflict check.
import Minirel.Types
import Minirel.Wal
import Mathlib.Data.Finset.Basic
import Mathlib.Data.Finset.Max
import Mathlib.Tactic.Tauto

/-!
# Transactions

`TransactionManager` hands out ids, keeps the sets of active and of aborted
ids, and decides which row versions a snapshot sees. A `Session` adds the
`Transaction` objects that callers hold, so that a history of calls is a list of
`TxnCall`s run from a fresh session.
-/

namespace Minirel

inductive TxnState where
  | active
  | committed
  | aborted
  deriving DecidableEq, Repr

/-- The text `TxnState` formats as. -/
def TxnState.value : TxnState → String
  | .active => "active"
  | .committed => "committed"
  | .aborted => "aborted"

structure Snapshot where
  xid : Nat
  activeXids : Finset Nat
  deriving DecidableEq

def Snapshot.committedBefore (s : Snapshot) (otherXid : Nat) : Bool :=
  otherXid < s.xid && otherXid ∉ s.activeXids

structure Transaction where
  txnId : Nat
  snapshot : Snapshot
  state : TxnState := .active
  deriving DecidableEq

structure TransactionManager (π : Type) where
  wal : WriteAheadLog π
  nextTxnId : Nat
  activeXids : Finset Nat
  abortedXids : Finset Nat
  deriving DecidableEq

namespace TransactionManager

variable {π : Type}

def init (wal : WriteAheadLog π) (nextTxnId : Nat) (initialAbortedXids : Finset Nat) :
    TransactionManager π :=
  ⟨wal, nextTxnId, ∅, initialAbortedXids⟩

def hasActiveTransactions (m : TransactionManager π) : Bool := m.activeXids ≠ ∅

/-- The id is taken and marked active before the log is written, so an id that
    the log refuses stays in the active set. -/
def begin (m : TransactionManager π) : Except PyError Transaction × TransactionManager π :=
  let txnId := m.nextTxnId
  let snapshot : Snapshot := ⟨txnId, m.activeXids⟩
  let m := { m with nextTxnId := m.nextTxnId + 1, activeXids := insert txnId m.activeXids }
  match m.wal.logBegin txnId with
  | .error e => (.error e, m)
  | .ok wal => (.ok { txnId, snapshot }, { m with wal })

def commit (m : TransactionManager π) (txn : Transaction) :
    Except PyError Transaction × TransactionManager π :=
  if txn.state ≠ .active then
    (.error (.valueError s!"cannot commit a transaction in state {txn.state.value}"), m)
  else
    match m.wal.logCommit txn.txnId with
    | .error e => (.error e, m)
    | .ok wal =>
      (.ok { txn with state := .committed },
        { m with wal, activeXids := m.activeXids.erase txn.txnId })

def abort (m : TransactionManager π) (txn : Transaction) :
    Except PyError Transaction × TransactionManager π :=
  if txn.state ≠ .active then
    (.error (.valueError s!"cannot abort a transaction in state {txn.state.value}"), m)
  else
    match m.wal.logAbort txn.txnId with
    | .error e => (.error e, m)
    | .ok wal =>
      (.ok { txn with state := .aborted },
        { m with
          wal
          activeXids := m.activeXids.erase txn.txnId
          abortedXids := insert txn.txnId m.abortedXids })

def isVisible (m : TransactionManager π) (xmin xmax : Nat) (snapshot : Snapshot) : Bool :=
  if xmin ∈ m.abortedXids then false
  else
    let xminVisible := xmin == snapshot.xid || snapshot.committedBefore xmin
    if !xminVisible then false
    else if xmax = infinityTxn ∨ xmax ∈ m.abortedXids then true
    else
      let xmaxVisible := xmax == snapshot.xid || snapshot.committedBefore xmax
      !xmaxVisible

def checkWriteConflict (m : TransactionManager π) (txn : Transaction) (currentXmax : Nat) :
    Except PyError Unit :=
  if currentXmax = infinityTxn then .ok ()
  else if currentXmax = txn.txnId then .ok ()
  else if currentXmax ∈ m.abortedXids then .ok ()
  else .error (.writeConflictError
    s!"txn {txn.txnId} cannot modify a row already modified by txn {currentXmax}")

/-- The rule of the module docstring: a version is visible when its creation is
    seen and its deletion is not, aborted transactions being never seen. -/
theorem isVisible_iff {m : TransactionManager π} {xmin xmax : Nat} {snapshot : Snapshot} :
    m.isVisible xmin xmax snapshot = true ↔
      (xmin ∉ m.abortedXids ∧ (xmin = snapshot.xid ∨ snapshot.committedBefore xmin = true)) ∧
      (xmax = infinityTxn ∨ xmax ∈ m.abortedXids ∨
        ¬(xmax = snapshot.xid ∨ snapshot.committedBefore xmax = true)) := by
  unfold isVisible
  by_cases h₁ : xmin ∈ m.abortedXids
  · simp [h₁]
  · by_cases h₂ : xmin = snapshot.xid ∨ snapshot.committedBefore xmin = true
    · have hb : (xmin == snapshot.xid || snapshot.committedBefore xmin) = true := by simpa using h₂
      by_cases h₃ : xmax = infinityTxn ∨ xmax ∈ m.abortedXids
      · simp [h₁, hb, h₂, h₃, ← or_assoc]
      · simp [h₁, hb, h₂, h₃, ← or_assoc]
    · have hb : (xmin == snapshot.xid || snapshot.committedBefore xmin) = false := by simpa using h₂
      simp [h₁, hb, h₂]

theorem checkWriteConflict_ok_iff {m : TransactionManager π} {txn : Transaction} {xmax : Nat} :
    m.checkWriteConflict txn xmax = .ok () ↔
      xmax = infinityTxn ∨ xmax = txn.txnId ∨ xmax ∈ m.abortedXids := by
  unfold checkWriteConflict
  split
  · simp_all
  · split
    · simp_all
    · split <;> simp_all

end TransactionManager

theorem Snapshot.committedBefore_iff {s : Snapshot} {t : Nat} :
    s.committedBefore t = true ↔ t < s.xid ∧ t ∉ s.activeXids := by
  simp [committedBefore]

end Minirel
