-- SUMMARY: The write-ahead log as a sequence of records, of which a prefix has been forced out.
import Minirel.Python

/-!
# The write-ahead log

The log at the level of whole records. `append` is `_append`: it fails only
when the transaction id does not fit the 32-bit header field, and then writes
nothing. The payload of an `OP` record is a parameter: no function of this file
looks inside it. Transaction ids are natural numbers in memory and 32 bits wide
in a record header.
-/

namespace Minirel

inductive RecordType where
  | begin
  | op
  | commit
  | abort
  | checkpoint
  deriving DecidableEq, Repr

/-- A record. Only `OP` records carry a payload. -/
structure LogRecord (π : Type) where
  type : RecordType
  txnId : Nat
  payload : Option π
  deriving DecidableEq, Repr

/-- The log: the records appended so far, and how many of them the last `flush`
    covered. A crash may lose any suffix of the others. -/
structure WriteAheadLog (π : Type) where
  records : List (LogRecord π)
  forced : Nat
  deriving DecidableEq, Repr

namespace WriteAheadLog

variable {π : Type}

def empty : WriteAheadLog π := ⟨[], 0⟩

def append (w : WriteAheadLog π) (type : RecordType) (txnId : Nat) (payload : Option π) :
    Except PyError (WriteAheadLog π) :=
  if txnId < 2 ^ 32 then .ok { w with records := w.records ++ [⟨type, txnId, payload⟩] }
  else .error .structError

def flush (w : WriteAheadLog π) : WriteAheadLog π :=
  { w with forced := w.records.length }

def logBegin (w : WriteAheadLog π) (txnId : Nat) : Except PyError (WriteAheadLog π) :=
  w.append .begin txnId none

def logOperation (w : WriteAheadLog π) (txnId : Nat) (op : π) : Except PyError (WriteAheadLog π) :=
  w.append .op txnId (some op)

def logCommit (w : WriteAheadLog π) (txnId : Nat) : Except PyError (WriteAheadLog π) := do
  let w ← w.append .commit txnId none
  return w.flush

def logAbort (w : WriteAheadLog π) (txnId : Nat) : Except PyError (WriteAheadLog π) :=
  w.append .abort txnId none

def logCheckpoint (w : WriteAheadLog π) : Except PyError (WriteAheadLog π) := do
  let w ← w.append .checkpoint 0 none
  return w.flush

/-- `close` hands every buffered record to the operating system. -/
def close (w : WriteAheadLog π) : WriteAheadLog π := w.flush

def readAll (w : WriteAheadLog π) : List (LogRecord π) := w.records

/-- The position of the last `CHECKPOINT` record. -/
def lastCheckpoint (records : List (LogRecord π)) : Option Nat :=
  records.zipIdx.foldl
    (fun last (record, i) => if record.type = .checkpoint then some i else last) none

/-- The records after the last `CHECKPOINT`, or all of them if there is none. -/
def readSinceLastCheckpoint (w : WriteAheadLog π) : List (LogRecord π) :=
  let allRecords := w.readAll
  match lastCheckpoint allRecords with
  | none => allRecords
  | some i => allRecords.drop (i + 1)

/-! ## Appending a record -/

theorem append_eq (w : WriteAheadLog π) {txnId : Nat} (h : txnId < 2 ^ 32) (type : RecordType)
    (payload : Option π) :
    w.append type txnId payload =
      .ok { w with records := w.records ++ [⟨type, txnId, payload⟩] } := if_pos h

theorem append_refused (w : WriteAheadLog π) {txnId : Nat} (h : ¬txnId < 2 ^ 32)
    (type : RecordType) (payload : Option π) :
    w.append type txnId payload = .error .structError := if_neg h

theorem append_ok {w w' : WriteAheadLog π} {type : RecordType} {txnId : Nat}
    {payload : Option π} (h : w.append type txnId payload = .ok w') :
    txnId < 2 ^ 32 ∧ w' = { w with records := w.records ++ [⟨type, txnId, payload⟩] } := by
  unfold append at h
  split at h
  · rename_i hlt
    cases h
    exact ⟨hlt, rfl⟩
  · cases h

theorem lastCheckpoint_snoc (records : List (LogRecord π)) (r : LogRecord π) :
    lastCheckpoint (records ++ [r]) =
      if r.type = .checkpoint then some records.length else lastCheckpoint records := by
  simp [lastCheckpoint, List.zipIdx_append]

theorem lastCheckpoint_lt {records : List (LogRecord π)} {i : Nat}
    (h : lastCheckpoint records = some i) : i < records.length := by
  induction records using List.reverseRecOn with
  | nil => simp [lastCheckpoint] at h
  | append_singleton records r ih =>
    rw [lastCheckpoint_snoc] at h
    rw [List.length_append]
    split at h
    · cases h
      simp
    · exact Nat.lt_add_right _ (ih h)

/-- What a record adds to the part of the log that recovery reads. -/
theorem readSinceLastCheckpoint_snoc (w : WriteAheadLog π) (r : LogRecord π) (n : Nat) :
    readSinceLastCheckpoint ⟨w.records ++ [r], n⟩ =
      if r.type = .checkpoint then [] else w.readSinceLastCheckpoint ++ [r] := by
  simp only [readSinceLastCheckpoint, readAll, lastCheckpoint_snoc]
  by_cases hr : r.type = .checkpoint
  · simp [hr]
  · cases h : lastCheckpoint w.records with
    | none => simp [hr]
    | some i =>
      have hlt := lastCheckpoint_lt h
      simp only [hr, if_false]
      rw [List.drop_append_of_le_length hlt]

end WriteAheadLog

/-! ## The last checkpoint -/

variable {π : Type}

/-- The records after the last `CHECKPOINT` of a list of records. -/
def sinceCheckpoint (records : List (LogRecord π)) : List (LogRecord π) :=
  WriteAheadLog.readSinceLastCheckpoint ⟨records, 0⟩

@[simp] theorem sinceCheckpoint_nil : sinceCheckpoint ([] : List (LogRecord π)) = [] := rfl

theorem sinceCheckpoint_snoc (records : List (LogRecord π)) (r : LogRecord π) :
    sinceCheckpoint (records ++ [r]) =
      if r.type = .checkpoint then [] else sinceCheckpoint records ++ [r] :=
  WriteAheadLog.readSinceLastCheckpoint_snoc ⟨records, 0⟩ r 0

theorem sinceCheckpoint_append {records more : List (LogRecord π)}
    (h : ∀ r ∈ more, r.type ≠ .checkpoint) :
    sinceCheckpoint (records ++ more) = sinceCheckpoint records ++ more := by
  induction more using List.reverseRecOn with
  | nil => simp
  | append_singleton more r ih =>
    rw [List.forall_mem_append] at h
    rw [← List.append_assoc, sinceCheckpoint_snoc, if_neg (h.2 r (by simp)), ih h.1,
      List.append_assoc]

end Minirel
