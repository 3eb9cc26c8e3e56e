-- SUMMARY: Histories of the log over crashes and restarts, and that recovery selects whole transactions.
import Minirel.Recovery

/-!
# Histories of the log

A log is written by one process after another, each of which may crash and lose
any records that no flush has covered. Beside the session a history remembers the
`OP` records every transaction has ever logged, also those that a crash lost, so
that what recovery selects can be compared with what was done.

`WellFormed` says of the log alone what one record may follow: it is what every
call preserves and what a crash cannot break.
-/

namespace Minirel

variable {π : Type}

/-! ## Well-formed logs -/

/-- A `BEGIN` takes an id above all ids in the log. Any other record of a transaction
    follows its `BEGIN` with no `CHECKPOINT` and no `COMMIT` of it in between. -/
inductive WellFormed : List (LogRecord π) → Prop where
  | nil : WellFormed []
  | begin {records : List (LogRecord π)} {t : Nat} {payload : Option π} (h : WellFormed records)
      (hfresh : ∀ r ∈ records, r.txnId < t) : WellFormed (records ++ [⟨.begin, t, payload⟩])
  | record {records : List (LogRecord π)} {r : LogRecord π} (h : WellFormed records)
      (hb : r.type ≠ .begin) (hk : r.type ≠ .checkpoint)
      (hbegun : r.txnId ∈ begunTxns (sinceCheckpoint records))
      (hopen : r.txnId ∉ committedTxns records) : WellFormed (records ++ [r])
  | checkpoint {records : List (LogRecord π)} {t : Nat} {payload : Option π}
      (h : WellFormed records) : WellFormed (records ++ [⟨.checkpoint, t, payload⟩])

namespace WellFormed

/-- What a crash leaves of a well-formed log is well-formed. -/
theorem of_append {records more : List (LogRecord π)} (h : WellFormed (records ++ more)) :
    WellFormed records := by
  induction more using List.reverseRecOn with
  | nil => simpa using h
  | append_singleton more r ih =>
    apply ih
    rw [← List.append_assoc] at h
    generalize hl : records ++ more ++ [r] = l at h
    cases h with
    | nil => simp at hl
    | begin h => exact (List.append_inj' hl rfl).1 ▸ h
    | record h => exact (List.append_inj' hl rfl).1 ▸ h
    | checkpoint h => exact (List.append_inj' hl rfl).1 ▸ h

/-- A transaction logs nothing after its `COMMIT`. -/
theorem not_committed_of_mem {records more : List (LogRecord π)}
    (h : WellFormed (records ++ more)) {r : LogRecord π} (hr : r ∈ more) (hop : r.type = .op) :
    r.txnId ∉ committedTxns records := by
  induction more using List.reverseRecOn with
  | nil => cases hr
  | append_singleton more r' ih =>
    rw [← List.append_assoc] at h
    obtain hr | hr := List.mem_append.mp hr
    · exact ih h.of_append hr
    · obtain rfl := List.mem_singleton.mp hr
      generalize hl : records ++ more ++ [r] = l at h
      cases h with
      | nil => simp at hl
      | begin h => simp [List.cons_eq_cons.mp (List.append_inj' hl rfl).2] at hop
      | checkpoint h => simp [List.cons_eq_cons.mp (List.append_inj' hl rfl).2] at hop
      | record h hb hk hbegun hopen =>
        obtain ⟨rfl, heq⟩ := List.append_inj' hl rfl
        obtain rfl := (List.cons_eq_cons.mp heq).1
        intro hc
        obtain ⟨c, hc, hrest⟩ := mem_committedTxns.mp hc
        exact hopen (mem_committedTxns.mpr ⟨c, List.mem_append_left _ hc, hrest⟩)

end WellFormed

/-! ## Histories -/

structure LogHistory (π : Type) where
  session : Session π
  /-- The `OP` records the latest transaction with an id has logged. -/
  ops : Nat → List (LogRecord π)

namespace LogHistory

inductive Event (π : Type) where
  | call (c : TxnCall)
  | operation (t : Nat) (op : π)
  | checkpoint
  | restart (kept : Nat)

abbrev records (s : LogHistory π) : List (LogRecord π) := s.session.mgr.wal.records

/-- A database on a new log file. -/
def init : LogHistory π := ⟨Session.reopen .empty, fun _ => []⟩

/-- One event; `none` when it cannot happen or raises. A restart follows a crash that
    kept at least the forced records, or an orderly close, which keeps all. -/
def step (s : LogHistory π) : Event π → Option (LogHistory π)
  | .call .begin =>
    some ⟨s.session.step .begin, Function.update s.ops s.session.mgr.nextTxnId []⟩
  | .call c => some { s with session := s.session.step c }
  | .operation t op => do
    let txn ← (s.session.txns t).filter (fun txn => txn.state = .active)
    let wal ← (s.session.mgr.wal.logOperation txn.txnId op).toOption
    some ⟨{ s.session with mgr := { s.session.mgr with wal } },
      Function.update s.ops txn.txnId (s.ops txn.txnId ++ [⟨.op, txn.txnId, some op⟩])⟩
  | .checkpoint => do
    let mgr ← s.session.mgr.checkpoint.toOption
    some { s with session := { s.session with mgr } }
  | .restart kept =>
    if s.session.mgr.wal.forced ≤ kept ∧ kept ≤ s.records.length then
      some { s with session := Session.reopen (s.session.mgr.wal.crash kept) }
    else none

inductive Reachable : LogHistory π → Prop where
  | init : Reachable init
  | step {s s' : LogHistory π} (e : Event π) (hs : Reachable s) (h : s.step e = some s') :
      Reachable s'

/-- The `OP` records of a transaction among the records. -/
def opsOf (records : List (LogRecord π)) (t : Nat) : List (LogRecord π) :=
  records.filter (fun r => r.type = .op ∧ r.txnId = t)

/-- What every event preserves. -/
structure Inv (s : LogHistory π) : Prop where
  session : s.session.Inv
  wellFormed : WellFormed s.records
  pos : 0 < s.session.mgr.nextTxnId
  lt_next : ∀ r ∈ s.records, r.txnId < s.session.mgr.nextTxnId
  /-- An active transaction began after the last `CHECKPOINT` and has not committed. -/
  active : ∀ {t x}, s.session.txns t = some x → x.state = .active →
    t ∈ begunTxns (sinceCheckpoint s.records) ∧ t ∉ committedTxns s.records
  /-- The log holds all operations of the transactions that matter. -/
  ops : ∀ {t}, (t ∈ committedTxns s.records ∨ ∃ x, s.session.txns t = some x ∧ x.state = .active) →
    s.ops t = opsOf s.records t

theorem opsOf_snoc (records : List (LogRecord π)) (r : LogRecord π) (t : Nat) :
    opsOf (records ++ [r]) t =
      opsOf records t ++ if r.type = .op ∧ r.txnId = t then [r] else [] := by
  simp [opsOf, List.filter_append, List.filter_singleton]

theorem opsOf_eq_nil {records : List (LogRecord π)} {t : Nat} (h : ∀ r ∈ records, r.txnId ≠ t) :
    opsOf records t = [] :=
  List.filter_eq_nil_iff.mpr fun r hr => by simp [h r hr]

theorem mem_committedTxns_of_snoc {records : List (LogRecord π)} {r : LogRecord π} {t : Nat}
    (h : t ∈ committedTxns (records ++ [r])) (hr : r.type ≠ .commit) : t ∈ committedTxns records :=
  (mem_committedTxns_snoc.mp h).resolve_right fun h' => hr h'.1

theorem lt_of_mem_committedTxns {s : LogHistory π} (hi : Inv s) {t : Nat}
    (ht : t ∈ committedTxns s.records) : t < s.session.mgr.nextTxnId := by
  obtain ⟨r, hr, -, rfl⟩ := mem_committedTxns.mp ht
  exact hi.lt_next r hr

theorem Inv.begin {s : LogHistory π} (hi : Inv s) :
    Inv ⟨s.session.step .begin, Function.update s.ops s.session.mgr.nextTxnId []⟩ := by
  have hsession := hi.session.step .begin
  obtain ⟨hlt, heq⟩ | ⟨-, heq⟩ := s.session.step_begin_cases
  · rw [heq] at hsession ⊢
    have hnew : ∀ {t x}, Function.update s.session.txns s.session.mgr.nextTxnId
        (some s.session.newTxn) t = some x → t = s.session.mgr.nextTxnId ∨
          (t ≠ s.session.mgr.nextTxnId ∧ s.session.txns t = some x) := by
      intro t x h
      by_cases ht : t = s.session.mgr.nextTxnId
      · exact .inl ht
      · exact .inr ⟨ht, by rwa [Function.update_of_ne ht] at h⟩
    refine ⟨hsession, .begin hi.wellFormed hi.lt_next, Nat.succ_pos _, ?_, ?_, ?_⟩
    · intro r hr
      obtain hr | hr := List.mem_append.mp hr
      · exact Nat.lt_succ_of_lt (hi.lt_next r hr)
      · obtain rfl := List.mem_singleton.mp hr
        exact Nat.lt_succ_self _
    · intro t x hx hact
      rw [sinceCheckpoint_snoc, if_neg (by simp), mem_begunTxns_snoc, mem_committedTxns_snoc]
      obtain rfl | ⟨-, hx⟩ := hnew hx
      · refine ⟨.inr ⟨rfl, rfl⟩, ?_⟩
        rintro (hc | ⟨hc, -⟩)
        · exact absurd (lt_of_mem_committedTxns hi hc) (lt_irrefl _)
        · cases hc
      · obtain ⟨hb, hc⟩ := hi.active hx hact
        exact ⟨.inl hb, by simpa using hc⟩
    · intro t ht
      change Function.update s.ops s.session.mgr.nextTxnId [] t = opsOf (s.records ++ [_]) t
      rw [opsOf_snoc, if_neg (by simp), List.append_nil]
      by_cases heqt : t = s.session.mgr.nextTxnId
      · subst heqt
        rw [Function.update_self, opsOf_eq_nil fun r hr => (hi.lt_next r hr).ne]
      · rw [Function.update_of_ne heqt]
        apply hi.ops
        obtain ht | ⟨x, hx, hact⟩ := ht
        · exact .inl (mem_committedTxns_of_snoc ht (by simp))
        · obtain h | ⟨-, hx⟩ := hnew hx
          · exact absurd h heqt
          · exact .inr ⟨x, hx, hact⟩
  · rw [heq] at hsession ⊢
    refine ⟨hsession, hi.wellFormed, Nat.succ_pos _, fun r hr => Nat.lt_succ_of_lt (hi.lt_next r hr),
      hi.active, ?_⟩
    intro t ht
    have hlt : t < s.session.mgr.nextTxnId := by
      obtain ht | ⟨x, hx, -⟩ := ht
      · exact lt_of_mem_committedTxns hi ht
      · exact (hi.session.handle hx).2.2.1
    change Function.update s.ops s.session.mgr.nextTxnId [] t = opsOf s.records t
    rw [Function.update_of_ne hlt.ne]
    exact hi.ops ht

/-- One more record of an active transaction that is not an operation: it commits
    or aborts, and its handle is active no more. -/
theorem Inv.ends {s s' : LogHistory π} (hi : Inv s) (hsession : s'.session.Inv) {t : Nat}
    {x x' : Transaction} {r : LogRecord π} (hx : s.session.txns t = some x)
    (hact : x.state = .active) (hr : r.type = .commit ∨ r.type = .abort) (hid : r.txnId = t)
    (hrecords : s'.records = s.records ++ [r])
    (hnext : s'.session.mgr.nextTxnId = s.session.mgr.nextTxnId)
    (htxns : s'.session.txns = Function.update s.session.txns t (some x'))
    (hended : x'.state ≠ .active) (hops : s'.ops = s.ops) : Inv s' := by
  obtain ⟨hbegun, hopen⟩ := hi.active hx hact
  have hb : r.type ≠ .begin := by rintro h; simp [h] at hr
  have hk : r.type ≠ .checkpoint := by rintro h; simp [h] at hr
  have ho : r.type ≠ .op := by rintro h; simp [h] at hr
  have hstill : ∀ {u y}, s'.session.txns u = some y → y.state = .active →
      u ≠ t ∧ s.session.txns u = some y := by
    intro u y hy hyact
    rw [htxns] at hy
    by_cases hu : u = t
    · subst hu
      rw [Function.update_self, Option.some.injEq] at hy
      exact absurd (hy ▸ hyact) hended
    · exact ⟨hu, by rwa [Function.update_of_ne hu] at hy⟩
  refine ⟨hsession, ?_, hnext ▸ hi.pos, ?_, ?_, ?_⟩
  · rw [hrecords]
    exact .record hi.wellFormed hb hk (hid ▸ hbegun) (hid ▸ hopen)
  · intro r' hr'
    rw [hrecords] at hr'
    rw [hnext]
    obtain hr' | hr' := List.mem_append.mp hr'
    · exact hi.lt_next r' hr'
    · rw [List.mem_singleton.mp hr', hid]
      exact (hi.session.handle hx).2.2.1
  · intro u y hy hyact
    obtain ⟨hu, hy⟩ := hstill hy hyact
    obtain ⟨hub, huc⟩ := hi.active hy hyact
    rw [hrecords, sinceCheckpoint_snoc, if_neg hk, mem_begunTxns_snoc, mem_committedTxns_snoc, hid]
    refine ⟨.inl hub, ?_⟩
    rintro (h | ⟨-, h⟩)
    · exact huc h
    · exact hu h.symm
  · intro u hu
    rw [hrecords] at hu ⊢
    rw [opsOf_snoc, if_neg (fun h => ho h.1), List.append_nil, hops]
    apply hi.ops
    obtain hu | ⟨y, hy, hyact⟩ := hu
    · obtain hu | ⟨-, hu⟩ := mem_committedTxns_snoc.mp hu
      · exact .inl hu
      · exact .inr ⟨x, by rw [← hu, hid, hx], hact⟩
    · exact .inr ⟨y, (hstill hy hyact).2, hyact⟩

theorem Inv.call {s s' : LogHistory π} (hi : Inv s) {c : TxnCall}
    (h : s.step (.call c) = some s') : Inv s' := by
  cases c with
  | begin =>
    cases h
    exact hi.begin
  | commit t =>
    cases h
    have hsession := hi.session.step (.commit t)
    obtain heq | ⟨x, hx, hact, heq⟩ := s.session.step_commit_cases t
    · rw [heq]
      exact hi
    · rw [heq] at hsession ⊢
      obtain ⟨rfl, -⟩ := hi.session.handle hx
      exact hi.ends hsession hx hact (.inl rfl) rfl rfl rfl rfl (by simp) rfl
  | abort t =>
    cases h
    have hsession := hi.session.step (.abort t)
    obtain heq | ⟨x, hx, hact, heq⟩ := s.session.step_abort_cases t
    · rw [heq]
      exact hi
    · rw [heq] at hsession ⊢
      obtain ⟨rfl, -⟩ := hi.session.handle hx
      exact hi.ends hsession hx hact (.inr rfl) rfl rfl rfl rfl (by simp) rfl

theorem Inv.operation {s s' : LogHistory π} (hi : Inv s) {t : Nat} {op : π}
    (h : s.step (.operation t op) = some s') : Inv s' := by
  simp only [step, Option.bind_eq_bind, Option.bind_eq_some_iff, Option.filter_eq_some_iff,
    decide_eq_true_eq, toOption_eq_some, Option.some.injEq] at h
  obtain ⟨x, ⟨hx, hact⟩, wal, hwal, rfl⟩ := h
  obtain ⟨-, rfl⟩ := WriteAheadLog.append_ok hwal
  obtain ⟨rfl, -, hlt, -⟩ := hi.session.handle hx
  obtain ⟨hbegun, hopen⟩ := hi.active hx hact
  refine ⟨hi.session.with_wal _, .record hi.wellFormed (by simp) (by simp) hbegun hopen, hi.pos, ?_,
    ?_, ?_⟩
  · intro r hr
    obtain hr | hr := List.mem_append.mp hr
    · exact hi.lt_next r hr
    · rw [List.mem_singleton.mp hr]
      exact hlt
  · intro u y hy hyact
    obtain ⟨hub, huc⟩ := hi.active hy hyact
    rw [sinceCheckpoint_snoc, if_neg (by simp), mem_begunTxns_snoc, mem_committedTxns_snoc]
    exact ⟨.inl hub, by simpa using huc⟩
  · intro u hu
    have hold : s.ops u = opsOf s.records u :=
      hi.ops (hu.imp_left fun h => mem_committedTxns_of_snoc h (by simp))
    change Function.update s.ops x.txnId _ u = opsOf (s.records ++ [_]) u
    rw [opsOf_snoc]
    by_cases hne : u = x.txnId
    · subst hne
      simp [hold]
    · simp [hne, Ne.symm hne, hold]

theorem Inv.checkpoint {s s' : LogHistory π} (hi : Inv s) (h : s.step .checkpoint = some s') :
    Inv s' := by
  simp only [step, Option.bind_eq_bind, Option.bind_eq_some_iff, toOption_eq_some,
    Option.some.injEq] at h
  obtain ⟨mgr, hmgr, rfl⟩ := h
  obtain ⟨hnone, rfl⟩ := TransactionManager.checkpoint_ok hmgr
  have hinactive : ∀ {t x}, s.session.txns t = some x → x.state ≠ .active := by
    intro t x hx hact
    have := (hi.session.active_iff hx).mp hact
    simp [hnone] at this
  refine ⟨hi.session.with_wal _, .checkpoint hi.wellFormed, hi.pos, ?_, ?_, ?_⟩
  · intro r hr
    obtain hr | hr := List.mem_append.mp hr
    · exact hi.lt_next r hr
    · rw [List.mem_singleton.mp hr]
      exact hi.pos
  · intro t x hx hact
    exact absurd hact (hinactive hx)
  · intro t ht
    change s.ops t = opsOf (s.records ++ [_]) t
    rw [opsOf_snoc, if_neg (by simp), List.append_nil]
    exact hi.ops (ht.imp_left fun h => mem_committedTxns_of_snoc h (by simp))

/-- A crash loses no operation of a transaction whose `COMMIT` it keeps. -/
theorem Inv.restart {s s' : LogHistory π} (hi : Inv s) {kept : Nat}
    (h : s.step (.restart kept) = some s') : Inv s' := by
  simp only [step] at h
  split at h
  · cases h
    have hcut : s.records = s.records.take kept ++ s.records.drop kept :=
      (List.take_append_drop kept s.records).symm
    have hwf := hi.wellFormed
    rw [hcut] at hwf
    refine ⟨Session.inv_reopen _, hwf.of_append, Nat.succ_pos _,
      fun r hr => lt_nextTxnIdAfterRecovery hr, ?_, ?_⟩
    · intro t x hx
      cases hx
    · intro t ht
      obtain ht | ⟨x, hx, -⟩ := ht
      · change s.ops t = opsOf (s.records.take kept) t
        have hc : t ∈ committedTxns s.records := by
          obtain ⟨r, hr, hrest⟩ := mem_committedTxns.mp ht
          exact mem_committedTxns.mpr ⟨r, List.mem_of_mem_take hr, hrest⟩
        have hlost : opsOf (s.records.drop kept) t = [] := by
          refine List.filter_eq_nil_iff.mpr fun r hr => ?_
          simp only [decide_eq_true_eq, not_and]
          rintro hop rfl
          exact hwf.not_committed_of_mem hr hop ht
        have happend : opsOf s.records t =
            opsOf (s.records.take kept) t ++ opsOf (s.records.drop kept) t := by
          conv_lhs => rw [hcut]
          exact List.filter_append ..
        rw [hi.ops (.inl hc), happend, hlost, List.append_nil]
      · cases hx
  · cases h

theorem Reachable.inv {s : LogHistory π} (hs : Reachable s) : Inv s := by
  induction hs with
  | init =>
    refine ⟨Session.inv_reopen _, .nil, Nat.succ_pos _, fun r hr => lt_nextTxnIdAfterRecovery hr, ?_, ?_⟩
    · intro t x hx
      cases hx
    · intro t _
      rfl
  | step e _ h ih =>
    cases e with
    | call c => exact ih.call h
    | operation t op => exact ih.operation h
    | checkpoint => exact ih.checkpoint h
    | restart kept => exact ih.restart h

/-! ## What recovery selects -/

end LogHistory
end Minirel
