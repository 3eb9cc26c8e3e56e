-- SUMMARY: Heap pages reaching the disk before the log does, and when the write-ahead rule holds.
import Minirel.Recovery

/-!
# The write-ahead rule

The cache may write any page to the data file at any time, while log records wait
in the append buffer until the next commit or checkpoint. A `Durable` is a session
and a heap as the running process sees them, together with the heap as it stands
in the data file. Pages are written back in any order and at any moment, whatever
the size of the buffer pool.
-/

namespace Minirel

variable {π ρ : Type}

/-- The id of `t` stands in the header, as creator or as deleter. -/
def HeapTuple.StampedBy (tup : HeapTuple ρ) (t : Nat) : Prop :=
  tup.xmin = t ∨ (tup.xmax = t ∧ tup.xmax ≠ infinityTxn)

structure Durable (π ρ : Type) where
  session : Session π
  heap : RID → Option (HeapTuple ρ)
  disk : RID → Option (HeapTuple ρ)

namespace Durable

abbrev records (s : Durable π ρ) : List (LogRecord π) := s.session.mgr.wal.records

/-- The records a flush has forced out. -/
def forced (s : Durable π ρ) : List (LogRecord π) := s.records.take s.session.mgr.wal.forced

/-- The records that are still in the append buffer. -/
def pending (s : Durable π ρ) : List (LogRecord π) := s.records.drop s.session.mgr.wal.forced

/-- A transaction has left its id in a heap. -/
def Stamps (heap : RID → Option (HeapTuple ρ)) (t : Nat) : Prop :=
  ∃ rid tup, heap rid = some tup ∧ tup.StampedBy t

def init : Durable π ρ := ⟨Session.reopen .empty, fun _ => none, fun _ => none⟩

inductive Event (π ρ : Type) where
  | call (c : TxnCall)
  | insert (t : Nat) (rid : RID) (row : ρ)
  | stamp (t : Nat) (rid : RID)
  | operation (t : Nat) (op : π)
  | writeBack (pageId : Nat)
  | checkpoint
  | restart (kept : Nat) (heap : RID → Option (HeapTuple ρ))

/-- One event. `writeBack` is an eviction or a flush. A checkpoint writes its record
    after every page has been flushed. A restart keeps the forced records and maybe
    more, and replays operations of transactions whose commit it finds. -/
inductive Step (s : Durable π ρ) : Event π ρ → Durable π ρ → Prop where
  | call (c : TxnCall) : Step s (.call c) { s with session := s.session.step c }
  | insert {t : Nat} {rid : RID} {row : ρ} {x : Transaction} {tup : HeapTuple ρ}
      (hx : s.session.txns t = some x) (hfree : s.heap rid = none)
      (htup : packTuple x.txnId infinityTxn row = .ok tup) :
      Step s (.insert t rid row) { s with heap := Function.update s.heap rid (some tup) }
  | stamp {t : Nat} {rid : RID} {x : Transaction} {raw new : HeapTuple ρ}
      (hx : s.session.txns t = some x) (hraw : s.heap rid = some raw)
      (hconf : s.session.mgr.checkWriteConflict x raw.xmax = .ok ())
      (hnew : withXmax raw x.txnId = .ok new) :
      Step s (.stamp t rid) { s with heap := Function.update s.heap rid (some new) }
  | operation {t : Nat} {op : π} {x : Transaction} {wal : WriteAheadLog π}
      (hx : s.session.txns t = some x) (hwal : s.session.mgr.wal.logOperation x.txnId op = .ok wal) :
      Step s (.operation t op)
        { s with session := { s.session with mgr := { s.session.mgr with wal } } }
  | writeBack (pageId : Nat) :
      Step s (.writeBack pageId)
        { s with disk := fun rid => if rid.pageId = pageId then s.heap rid else s.disk rid }
  | checkpoint {mgr : TransactionManager π} (hflushed : s.disk = s.heap)
      (hmgr : s.session.mgr.checkpoint = .ok mgr) :
      Step s .checkpoint { s with session := { s.session with mgr } }
  | restart {kept : Nat} {heap : RID → Option (HeapTuple ρ)}
      (hforced : s.session.mgr.wal.forced ≤ kept) (hkept : kept ≤ s.records.length)
      (hheap : ∀ t, Stamps heap t → Stamps s.disk t ∨ t ∈ committedTxns (s.records.take kept)) :
      Step s (.restart kept heap)
        ⟨Session.reopen (s.session.mgr.wal.crash kept), heap, s.disk⟩

/-- The states reached by events that all meet `ok`. -/
inductive Reachable (ok : Durable π ρ → Event π ρ → Prop) : Durable π ρ → Prop where
  | init : Reachable ok init
  | step {s s' : Durable π ρ} (e : Event π ρ) (hs : Reachable ok s) (hok : ok s e)
      (h : Step s e s') : Reachable ok s'

/-- The log is ahead of the data file: a transaction whose id is on disk has its
    `BEGIN` forced out, and so a restart from the forced records neither hands its id
    out again nor takes it for committed unless it is. -/
def WriteAhead (s : Durable π ρ) : Prop :=
  ∀ t, Stamps s.disk t → t ∈ begunTxns s.forced ∧
    t < nextTxnIdAfterRecovery (s.session.mgr.wal.crash s.session.mgr.wal.forced) ∧
    (t ∈ uncommittedTxnIdsSinceCheckpoint (s.session.mgr.wal.crash s.session.mgr.wal.forced) ∨
      t ∈ committedTxns s.forced)

/-- No page is written back with the id of a transaction whose `BEGIN` is still in
    the append buffer. No checkpoint is written while the heap holds the id of a
    transaction that has not committed, and no transaction aborted before the last
    checkpoint writes any more. -/
def Safe (s : Durable π ρ) : Event π ρ → Prop
  | .writeBack pageId => ∀ rid tup t, rid.pageId = pageId → s.heap rid = some tup →
      tup.StampedBy t → t ∉ begunTxns s.pending
  | .checkpoint => ∀ t, Stamps s.heap t → t ∈ committedTxns s.records
  | .insert t _ _ | .stamp t _ => ∀ x, s.session.txns t = some x → x.state = .aborted →
      t ∈ begunTxns (sinceCheckpoint s.records)
  | _ => True

/-! ## The invariant -/

/-- What is known of a transaction with a given list of records. -/
def Accounted (records : List (LogRecord π)) (t : Nat) : Prop :=
  t ∈ begunTxns records ∧
    (t ∈ begunTxns (sinceCheckpoint records) ∨ t ∈ committedTxns records)

structure Inv (s : Durable π ρ) : Prop where
  session : s.session.Inv
  forced_le : s.session.mgr.wal.forced ≤ s.records.length
  /-- A commit or a checkpoint is forced out at once. -/
  pending : ∀ r ∈ s.pending, r.type ≠ .commit ∧ r.type ≠ .checkpoint
  commits : ∀ n, committedTxns (s.records.take n) ⊆ begunTxns (s.records.take n)
  handle : ∀ {t x}, s.session.txns t = some x → t ∈ begunTxns s.records ∧
    (x.state = .active → t ∈ begunTxns (sinceCheckpoint s.records)) ∧
    (x.state = .committed → t ∈ committedTxns s.records)
  heap : ∀ t, Stamps s.heap t → Accounted s.records t
  disk : ∀ t, Stamps s.disk t → Accounted s.forced t

theorem begunTxns_append (l₁ l₂ : List (LogRecord π)) :
    begunTxns (l₁ ++ l₂) = begunTxns l₁ ∪ begunTxns l₂ := by
  ext t
  simp only [Finset.mem_union, mem_begunTxns, List.mem_append, or_and_right, exists_or]

theorem committedTxns_append (l₁ l₂ : List (LogRecord π)) :
    committedTxns (l₁ ++ l₂) = committedTxns l₁ ∪ committedTxns l₂ := by
  ext t
  simp only [Finset.mem_union, mem_committedTxns, List.mem_append, or_and_right, exists_or]

theorem forced_append_pending (s : Durable π ρ) : s.forced ++ s.pending = s.records :=
  List.take_append_drop _ _

theorem Accounted.append {records more : List (LogRecord π)} {t : Nat} (h : Accounted records t)
    (hmore : ∀ r ∈ more, r.type ≠ .checkpoint) : Accounted (records ++ more) t := by
  rw [Accounted, begunTxns_append, committedTxns_append, sinceCheckpoint_append hmore,
    begunTxns_append]
  simp only [Finset.mem_union]
  exact ⟨.inl h.1, h.2.imp .inl .inl⟩

/-- A `BEGIN` that is not pending is forced. -/
theorem Accounted.of_pending {s : Durable π ρ} (hi : Inv s) {t : Nat} (h : Accounted s.records t)
    (ht : t ∉ begunTxns s.pending) : Accounted s.forced t := by
  have hnone : t ∉ committedTxns s.pending := by
    intro hc
    obtain ⟨r, hr, htype, -⟩ := mem_committedTxns.mp hc
    exact (hi.pending r hr).1 htype
  rw [Accounted, ← forced_append_pending, begunTxns_append, committedTxns_append,
    sinceCheckpoint_append fun r hr => (hi.pending r hr).2, begunTxns_append] at h
  simp only [Finset.mem_union, ht, hnone, or_false] at h
  exact h

theorem Inv.writeAhead {s : Durable π ρ} (hi : Inv s) : WriteAhead s := by
  intro t ht
  obtain ⟨hb, hrest⟩ := hi.disk t ht
  refine ⟨hb, ?_, ?_⟩
  · obtain ⟨r, hr, -, rfl⟩ := mem_begunTxns.mp hb
    exact lt_nextTxnIdAfterRecovery hr
  · by_cases hc : t ∈ committedTxns s.forced
    · exact .inr hc
    · refine .inl (Finset.mem_sdiff.mpr ⟨hrest.resolve_right hc, fun hc' => hc ?_⟩)
      obtain ⟨r, hr, hrest⟩ := mem_committedTxns.mp hc'
      exact mem_committedTxns.mpr ⟨r, mem_of_mem_readSinceLastCheckpoint hr, hrest⟩

/-! ## What each event preserves -/

/-- A record other than a checkpoint is appended, and either left pending or forced
    out with everything before it. -/
theorem Inv.append {s : Durable π ρ} (hi : Inv s) {session : Session π} {r : LogRecord π} {n : Nat}
    (hsession : session.Inv) (hwal : session.mgr.wal = ⟨s.records ++ [r], n⟩)
    (hk : r.type ≠ .checkpoint) (hc : r.type = .commit → r.txnId ∈ begunTxns s.records)
    (hn : (n = s.session.mgr.wal.forced ∧ r.type ≠ .commit) ∨ n = s.records.length + 1)
    (hhandle : ∀ {t x}, session.txns t = some x → t ∈ begunTxns (s.records ++ [r]) ∧
      (x.state = .active → t ∈ begunTxns (sinceCheckpoint s.records ++ [r])) ∧
      (x.state = .committed → t ∈ committedTxns (s.records ++ [r]))) :
    Inv { s with session } := by
  have hone : ∀ r' ∈ [r], r'.type ≠ .checkpoint := by simpa using hk
  have hforced : n = s.session.mgr.wal.forced → (s.records ++ [r]).take n = s.forced := by
    rintro rfl
    exact List.take_append_of_le_length hi.forced_le
  have hall : n = s.records.length + 1 → (s.records ++ [r]).take n = s.records ++ [r] := by
    rintro rfl
    exact List.take_of_length_le (by simp)
  constructor
  case session => exact hsession
  case forced_le =>
    rw [records, hwal]
    have := hi.forced_le
    simp only [List.length_append, List.length_singleton]
    omega
  case pending =>
    intro r' hr'
    rw [Durable.pending, records, hwal] at hr'
    dsimp only at hr'
    obtain ⟨rfl, hnc⟩ | rfl := hn
    · rw [List.drop_append_of_le_length hi.forced_le] at hr'
      obtain hr' | hr' := List.mem_append.mp hr'
      · exact hi.pending r' hr'
      · rw [List.mem_singleton.mp hr']
        exact ⟨hnc, hk⟩
    · simp at hr'
  case commits =>
    intro m
    rw [records, hwal]
    dsimp only
    by_cases hm : m ≤ s.records.length
    · rw [List.take_append_of_le_length hm]
      exact hi.commits m
    · rw [List.take_of_length_le (by simp; omega)]
      intro t ht
      have hwhole := hi.commits s.records.length
      rw [List.take_length] at hwhole
      obtain ht | ⟨htype, rfl⟩ := mem_committedTxns_snoc.mp ht
      · exact mem_begunTxns_snoc.mpr (.inl (hwhole ht))
      · exact mem_begunTxns_snoc.mpr (.inl (hc htype))
  case handle =>
    intro t x hx
    rw [records, hwal]
    dsimp only
    rw [sinceCheckpoint_append hone]
    exact hhandle hx
  case heap =>
    intro t ht
    rw [records, hwal]
    exact (hi.heap t ht).append hone
  case disk =>
    intro t ht
    have hacc := hi.disk t ht
    rw [Durable.forced, records, hwal]
    dsimp only
    obtain ⟨h, -⟩ | h := hn
    · rw [hforced h]
      exact hacc
    · rw [hall h, ← forced_append_pending, List.append_assoc]
      refine hacc.append (List.forall_mem_append.mpr ⟨fun r hr => (hi.pending r hr).2, hone⟩)

/-- A handle that a call has not touched. -/
theorem Inv.handle_snoc {s : Durable π ρ} (hi : Inv s) {t : Nat} {x : Transaction}
    (hx : s.session.txns t = some x) (r : LogRecord π) :
    t ∈ begunTxns (s.records ++ [r]) ∧
      (x.state = .active → t ∈ begunTxns (sinceCheckpoint s.records ++ [r])) ∧
      (x.state = .committed → t ∈ committedTxns (s.records ++ [r])) := by
  obtain ⟨hb, hact, hcom⟩ := hi.handle hx
  exact ⟨mem_begunTxns_snoc.mpr (.inl hb), fun h => mem_begunTxns_snoc.mpr (.inl (hact h)),
    fun h => mem_committedTxns_snoc.mpr (.inl (hcom h))⟩

/-- The handles after a call that has touched one of them. -/
theorem Inv.handle_update {s : Durable π ρ} (hi : Inv s) {session : Session π} {u : Nat}
    {y : Transaction} {r : LogRecord π}
    (htxns : session.txns = Function.update s.session.txns u (some y))
    (hb : u ∈ begunTxns (s.records ++ [r]))
    (hact : y.state = .active → u ∈ begunTxns (sinceCheckpoint s.records ++ [r]))
    (hcom : y.state = .committed → u ∈ committedTxns (s.records ++ [r])) {t : Nat} {x : Transaction}
    (hx : session.txns t = some x) :
    t ∈ begunTxns (s.records ++ [r]) ∧
      (x.state = .active → t ∈ begunTxns (sinceCheckpoint s.records ++ [r])) ∧
      (x.state = .committed → t ∈ committedTxns (s.records ++ [r])) := by
  rw [htxns] at hx
  by_cases ht : t = u
  · subst ht
    rw [Function.update_self, Option.some.injEq] at hx
    subst hx
    exact ⟨hb, hact, hcom⟩
  · rw [Function.update_of_ne ht] at hx
    exact hi.handle_snoc hx r

theorem Inv.call {s : Durable π ρ} (hi : Inv s) (c : TxnCall) :
    Inv { s with session := s.session.step c } := by
  have hsession := hi.session.step c
  cases c with
  | begin =>
    obtain ⟨-, heq⟩ | ⟨-, heq⟩ := s.session.step_begin_cases
    · rw [heq] at hsession ⊢
      exact hi.append hsession rfl (by simp) (by simp) (.inl ⟨rfl, by simp⟩)
        (hi.handle_update rfl (mem_begunTxns_snoc.mpr (.inr ⟨rfl, rfl⟩))
          (fun _ => mem_begunTxns_snoc.mpr (.inr ⟨rfl, rfl⟩)) (fun h => by cases h))
    · rw [heq] at hsession ⊢
      exact ⟨hsession, hi.forced_le, hi.pending, hi.commits, hi.handle, hi.heap, hi.disk⟩
  | commit t =>
    obtain heq | ⟨x, hx, -, heq⟩ := s.session.step_commit_cases t
    · rw [heq]
      exact hi
    · rw [heq] at hsession ⊢
      obtain ⟨rfl, -⟩ := hi.session.handle hx
      have hb := (hi.handle hx).1
      exact hi.append hsession rfl (by simp) (fun _ => hb) (.inr rfl)
        (hi.handle_update rfl (mem_begunTxns_snoc.mpr (.inl hb)) (fun h => by cases h)
          (fun _ => mem_committedTxns_snoc.mpr (.inr ⟨rfl, rfl⟩)))
  | abort t =>
    obtain heq | ⟨x, hx, -, heq⟩ := s.session.step_abort_cases t
    · rw [heq]
      exact hi
    · rw [heq] at hsession ⊢
      obtain ⟨rfl, -⟩ := hi.session.handle hx
      exact hi.append hsession rfl (by simp) (by simp) (.inl ⟨rfl, by simp⟩)
        (hi.handle_update rfl (mem_begunTxns_snoc.mpr (.inl (hi.handle hx).1))
          (fun h => by cases h) (fun h => by cases h))

theorem stamps_update {heap : RID → Option (HeapTuple ρ)} {rid : RID} {new : HeapTuple ρ} {t : Nat}
    (h : Stamps (Function.update heap rid (some new)) t) : new.StampedBy t ∨ Stamps heap t := by
  obtain ⟨rid', tup, htup, hstamp⟩ := h
  by_cases hrid : rid' = rid
  · subst hrid
    rw [Function.update_self, Option.some.injEq] at htup
    exact .inl (htup ▸ hstamp)
  · rw [Function.update_of_ne hrid] at htup
    exact .inr ⟨rid', tup, htup, hstamp⟩

/-- A tuple written by a transaction whose id is accounted for. -/
theorem Inv.write {s : Durable π ρ} (hi : Inv s) {t : Nat} {x : Transaction} {rid : RID}
    {new : HeapTuple ρ} (hx : s.session.txns t = some x)
    (hok : x.state = .aborted → t ∈ begunTxns (sinceCheckpoint s.records))
    (hnew : ∀ t', new.StampedBy t' → t' = t ∨ Stamps s.heap t') :
    Inv { s with heap := Function.update s.heap rid (some new) } := by
  refine ⟨hi.session, hi.forced_le, hi.pending, hi.commits, hi.handle, fun t' ht' => ?_, hi.disk⟩
  obtain rfl | ht' : t' = t ∨ Stamps s.heap t' := (stamps_update ht').elim (hnew t') .inr
  · obtain ⟨hb, hact, hcom⟩ := hi.handle hx
    refine ⟨hb, ?_⟩
    cases hstate : x.state with
    | active => exact .inl (hact hstate)
    | committed => exact .inr (hcom hstate)
    | aborted => exact .inl (hok hstate)
  · exact hi.heap t' ht'

theorem Inv.insert {s : Durable π ρ} (hi : Inv s) {t : Nat} {x : Transaction} {rid : RID} {row : ρ}
    {tup : HeapTuple ρ} (hx : s.session.txns t = some x)
    (htup : packTuple x.txnId infinityTxn row = .ok tup)
    (hok : x.state = .aborted → t ∈ begunTxns (sinceCheckpoint s.records)) :
    Inv { s with heap := Function.update s.heap rid (some tup) } := by
  obtain ⟨hmin, hmax, -⟩ := packTuple_ok htup
  refine hi.write hx hok fun t' ht' => .inl ?_
  obtain h | ⟨-, h⟩ := ht'
  · rw [← h, hmin, (hi.session.handle hx).1]
  · exact absurd hmax h

theorem Inv.stamp {s : Durable π ρ} (hi : Inv s) {t : Nat} {x : Transaction} {rid : RID}
    {raw new : HeapTuple ρ} (hx : s.session.txns t = some x) (hraw : s.heap rid = some raw)
    (hnew : withXmax raw x.txnId = .ok new)
    (hok : x.state = .aborted → t ∈ begunTxns (sinceCheckpoint s.records)) :
    Inv { s with heap := Function.update s.heap rid (some new) } := by
  obtain ⟨hmin, hmax, -⟩ := withXmax_ok hnew
  refine hi.write hx hok fun t' ht' => ?_
  obtain h | ⟨h, -⟩ := ht'
  · exact .inr ⟨rid, raw, hraw, .inl (hmin ▸ h)⟩
  · exact .inl (by rw [← h, hmax, (hi.session.handle hx).1])

theorem Inv.writeBack {s : Durable π ρ} (hi : Inv s) {pageId : Nat}
    (hok : Safe s (.writeBack pageId)) :
    Inv { s with disk := fun rid => if rid.pageId = pageId then s.heap rid else s.disk rid } := by
  refine ⟨hi.session, hi.forced_le, hi.pending, hi.commits, hi.handle, hi.heap, fun t ht => ?_⟩
  obtain ⟨rid, tup, htup, hstamp⟩ := ht
  dsimp only at htup
  by_cases hrid : rid.pageId = pageId
  · rw [if_pos hrid] at htup
    exact (hi.heap t ⟨rid, tup, htup, hstamp⟩).of_pending hi (hok rid tup t hrid htup hstamp)
  · rw [if_neg hrid] at htup
    exact hi.disk t ⟨rid, tup, htup, hstamp⟩

theorem Inv.checkpoint {s : Durable π ρ} (hi : Inv s) {mgr : TransactionManager π}
    (hflushed : s.disk = s.heap) (hmgr : s.session.mgr.checkpoint = .ok mgr)
    (hok : Safe s .checkpoint) : Inv { s with session := { s.session with mgr } } := by
  obtain ⟨hnone, rfl⟩ := TransactionManager.checkpoint_ok hmgr
  have hheap : ∀ t, Stamps s.heap t →
      Accounted (s.records ++ [⟨.checkpoint, 0, none⟩]) t := fun t ht =>
    ⟨mem_begunTxns_snoc.mpr (.inl (hi.heap t ht).1),
      .inr (mem_committedTxns_snoc.mpr (.inl (hok t ht)))⟩
  have hall : ∀ r : LogRecord π, (s.records ++ [r]).take (s.records.length + 1) = s.records ++ [r] :=
    fun r => List.take_of_length_le (by simp)
  refine ⟨hi.session.with_wal _, ?_, ?_, ?_, ?_, hheap, ?_⟩
  · change s.records.length + 1 ≤ (s.records ++ [_]).length
    simp
  · intro r hr
    change r ∈ (s.records ++ [_]).drop (s.records.length + 1) at hr
    simp at hr
  · intro m
    by_cases hm : m ≤ s.records.length
    · change committedTxns ((s.records ++ [_]).take m) ⊆ begunTxns ((s.records ++ [_]).take m)
      rw [List.take_append_of_le_length hm]
      exact hi.commits m
    · change committedTxns ((s.records ++ [_]).take m) ⊆ begunTxns ((s.records ++ [_]).take m)
      have hwhole := hi.commits s.records.length
      rw [List.take_length] at hwhole
      rw [List.take_of_length_le (by simp; omega)]
      intro t ht
      obtain ht | ⟨htype, -⟩ := mem_committedTxns_snoc.mp ht
      · exact mem_begunTxns_snoc.mpr (.inl (hwhole ht))
      · cases htype
  · intro t x hx
    obtain ⟨hb, -, hcom⟩ := hi.handle hx
    refine ⟨mem_begunTxns_snoc.mpr (.inl hb), fun hact => ?_,
      fun h => mem_committedTxns_snoc.mpr (.inl (hcom h))⟩
    have := (hi.session.active_iff hx).mp hact
    simp [hnone] at this
  · intro t ht
    change Accounted ((s.records ++ [_]).take (s.records.length + 1)) t
    rw [hall]
    exact hheap t (hflushed ▸ ht)

/-- After a restart all records are forced, and the ids on disk are still accounted
    for since no checkpoint was lost. -/
theorem Inv.restart {s : Durable π ρ} (hi : Inv s) {kept : Nat}
    {heap : RID → Option (HeapTuple ρ)} (hforced : s.session.mgr.wal.forced ≤ kept)
    (hkept : kept ≤ s.records.length)
    (hheap : ∀ t, Stamps heap t → Stamps s.disk t ∨ t ∈ committedTxns (s.records.take kept)) :
    Inv ⟨Session.reopen (s.session.mgr.wal.crash kept), heap, s.disk⟩ := by
  have hlen : (s.records.take kept).length = kept := by simpa using hkept
  have hdisk : ∀ t, Stamps s.disk t → Accounted (s.records.take kept) t := by
    intro t ht
    have hcut : s.records.take kept = s.forced ++ s.pending.take (kept - s.session.mgr.wal.forced) := by
      rw [Durable.forced, Durable.pending, ← List.take_add, Nat.add_sub_cancel' hforced]
    rw [hcut]
    exact (hi.disk t ht).append fun r hr => (hi.pending r (List.mem_of_mem_take hr)).2
  have hall : (s.records.take kept).take kept = s.records.take kept :=
    List.take_of_length_le hlen.le
  refine ⟨Session.inv_reopen _, hlen.ge, ?_, ?_, ?_, ?_, ?_⟩
  · intro r hr
    change r ∈ (s.records.take kept).drop kept at hr
    rw [List.drop_of_length_le hlen.le] at hr
    cases hr
  · intro m
    change committedTxns ((s.records.take kept).take m) ⊆ begunTxns ((s.records.take kept).take m)
    rw [List.take_take]
    exact hi.commits _
  · intro t x hx
    cases hx
  · intro t ht
    obtain ht | hc := hheap t ht
    · exact hdisk t ht
    · exact ⟨hi.commits kept hc, .inr hc⟩
  · intro t ht
    change Accounted ((s.records.take kept).take kept) t
    rw [hall]
    exact hdisk t ht

theorem Inv.step {s s' : Durable π ρ} {e : Event π ρ} (hi : Inv s) (hok : Safe s e)
    (h : Step s e s') : Inv s' := by
  cases h with
  | call c => exact hi.call c
  | insert hx hfree htup => exact hi.insert hx htup (hok _ hx)
  | stamp hx hraw hconf hnew => exact hi.stamp hx hraw hnew (hok _ hx)
  | operation hx hwal =>
    obtain ⟨-, rfl⟩ := WriteAheadLog.append_ok hwal
    exact hi.append (hi.session.with_wal _) rfl (by simp) (by simp) (.inl ⟨rfl, by simp⟩)
      fun hx' => hi.handle_snoc hx' _
  | writeBack pageId => exact hi.writeBack hok
  | checkpoint hflushed hmgr => exact hi.checkpoint hflushed hmgr hok
  | restart hforced hkept hheap => exact hi.restart hforced hkept hheap

theorem inv_init : Inv (init : Durable π ρ) where
  session := Session.inv_reopen _
  forced_le := le_rfl
  pending r hr := by cases hr
  commits n := by
    change committedTxns (List.take n []) ⊆ _
    simp [committedTxns]
  handle hx := by cases hx
  heap t ht := by simp [Stamps, init] at ht
  disk t ht := by simp [Stamps, init] at ht

/-- In every run whose events are all safe, the log stays ahead of the data file. -/
theorem writeAhead_of_reachable {s : Durable π ρ} (hs : Reachable Safe s) : WriteAhead s := by
  have hi : Inv s := by
    induction hs with
    | init => exact inv_init
    | step e _ hok h ih => exact ih.step hok h
  exact hi.writeAhead

/-- The page of an inserted row is written back after its transaction has committed. -/
theorem writeAhead_of_reachable_commit : ∃ s : Durable Unit Nat,
    (s.disk ⟨0, 0⟩).isSome = true ∧ WriteAhead s := by
  have h₀ : Reachable Safe (init : Durable Unit Nat) := .init
  have h₁ := h₀.step (.call .begin) trivial (.call .begin)
  have h₂ := h₁.step (.insert 1 ⟨0, 0⟩ 7) (fun x hx hab => by cases hx; cases hab)
    (.insert rfl rfl rfl)
  have h₃ := h₂.step (.call (.commit 1)) trivial (.call _)
  have h₄ := h₃.step (.writeBack 0) (fun rid tup t _ _ _ => by
    change t ∉ begunTxns []
    simp [begunTxns]) (.writeBack 0)
  exact ⟨_, rfl, writeAhead_of_reachable h₄⟩

/-- The page of an inserted row is evicted before any commit: its transaction is
    unknown to the forced part of the log. -/
theorem not_writeAhead_of_eviction :
    ¬∀ s : Durable Unit Nat, Reachable (fun _ _ => True) s → WriteAhead s := by
  intro h
  have h₀ : Reachable (fun _ _ => True) (init : Durable Unit Nat) := .init
  have h₁ := h₀.step (.call .begin) trivial (.call .begin)
  have h₂ := h₁.step (.insert 1 ⟨0, 0⟩ 7) trivial (.insert rfl rfl rfl)
  have h₃ := h₂.step (.writeBack 0) trivial (.writeBack 0)
  have hb := (h _ h₃ 1 ⟨⟨0, 0⟩, ⟨1, infinityTxn, 7, by decide, by decide⟩, rfl, .inl rfl⟩).1
  exact absurd hb (by decide)

end Durable
end Minirel
