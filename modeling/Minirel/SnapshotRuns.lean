-- SUMMARY: The database as a snapshot-isolated store: every call is a few events of the store.
import Minirel.Isolation
import Minirel.Rewrites
import Minirel.UniqueRuns
import Minirel.Lib.SnapshotStore

/-!
# The store behind the database

A row version is its table, its RID and its values. What a new transaction would see is
committed. An active transaction started from what its snapshot covers, has added the versions
it has created, and has removed those that bear its stamp. With this reading every call on the
database, whether it returns or raises, is a sequence of events of a snapshot-isolated store.
-/

namespace Minirel

open SnapshotStore

namespace Database

variable {C : Conversions} {tr : Tracked} {db db' db₁ db₂ : Database} {v v' : View}
  {mgr : TransactionManager LogOp} {txn x : Transaction} {t : String} {rid : RID} {tup : Tuple}
  {n m : Nat} {stmt : Statement}

/-! ## The store -/

/-- A row version: its table, its RID and its values. -/
abbrev Version := String × RID × List Value

/-- The stored versions with a property. -/
def versionsWith (db : Database) (P : Tuple → Prop) : Set Version :=
  {y | ∃ tup, Stored db y.1 y.2.1 tup ∧ rowValues tup = y.2.2 ∧ P tup}

/-- What an active transaction has started from and has done since. -/
def workOf (db : Database) (x : Transaction) : Work Version where
  base := versionsWith db fun tup => tup.xmin ∉ db.mgr.abortedXids ∧
    x.snapshot.committedBefore tup.xmin = true ∧ (tup.xmax = infinityTxn ∨
      tup.xmax ∈ db.mgr.abortedXids ∨ ¬x.snapshot.committedBefore tup.xmax = true)
  added := versionsWith db fun tup => tup.xmin = x.txnId ∧ sees db.mgr x.snapshot tup = true
  removed := versionsWith db fun tup => tup.xmin ∉ db.mgr.abortedXids ∧
    x.snapshot.committedBefore tup.xmin = true ∧ tup.xmax = x.txnId

/-- The store that a database stands for. -/
def store (db : Database) : Store Version where
  committed := versionsWith db fun tup => sees db.mgr db.session.newTxn.snapshot tup = true
  known := versionsWith db fun _ => True
  work n := ((db.session.txns n).filter fun x => x.state = .active).map (workOf db)

theorem sees_iff {snapshot : Snapshot} : sees mgr snapshot tup = true ↔
    (tup.xmin ∉ mgr.abortedXids ∧ snapshot.Covers tup.xmin) ∧
      (tup.xmax = infinityTxn ∨ tup.xmax ∈ mgr.abortedXids ∨ ¬snapshot.Covers tup.xmax) :=
  TransactionManager.isVisible_iff

theorem versionsWith_congr {P P' : Tuple → Prop}
    (hstored : ∀ t rid tup, Stored db' t rid tup ↔ Stored db t rid tup)
    (h : ∀ t rid tup, Stored db t rid tup → (P' tup ↔ P tup)) : versionsWith db' P' = versionsWith db P := by
  ext ⟨t, rid, values⟩
  constructor
  · rintro ⟨tup, hmem, hvalues, hp⟩
    have hmem₀ := (hstored _ _ _).mp hmem
    exact ⟨tup, hmem₀, hvalues, (h _ _ _ hmem₀).mp hp⟩
  · rintro ⟨tup, hmem, hvalues, hp⟩
    exact ⟨tup, (hstored _ _ _).mpr hmem, hvalues, (h _ _ _ hmem).mpr hp⟩

/-- What leaves the versions and the transactions alone leaves the store alone. -/
theorem store_congr (hstored : ∀ t rid tup, Stored db' t rid tup ↔ Stored db t rid tup)
    (htxns : db'.session.txns = db.session.txns) (hnext : db'.mgr.nextTxnId = db.mgr.nextTxnId)
    (hactive : db'.mgr.activeXids = db.mgr.activeXids)
    (haborted : db'.mgr.abortedXids = db.mgr.abortedXids) : store db' = store db := by
  have hsees : ∀ snapshot tup, sees db'.mgr snapshot tup = sees db.mgr snapshot tup :=
    fun snapshot tup => sees_congr haborted snapshot tup
  have hsnapshot : db'.session.newTxn.snapshot = db.session.newTxn.snapshot := by
    rw [mgr, mgr] at hnext hactive
    simp only [Session.newTxn, hnext, hactive]
  have hwork : workOf db' = workOf db := by
    funext x
    simp only [workOf, haborted, hsees, Work.mk.injEq]
    exact ⟨versionsWith_congr hstored fun _ _ _ _ => .rfl, versionsWith_congr hstored fun _ _ _ _ => .rfl,
      versionsWith_congr hstored fun _ _ _ _ => .rfl⟩
  have hcommitted := versionsWith_congr hstored (P := fun tup =>
    sees db.mgr db.session.newTxn.snapshot tup = true) fun _ _ _ _ => .rfl
  have hknown := versionsWith_congr hstored (P := fun _ => True) fun _ _ _ _ => .rfl
  simp only [store, hwork, htxns, hsnapshot, hsees, hknown, hcommitted]

/-! ## Stamps -/

/-- Who has created a stored version has been begun, and who has stamped it, if not aborted, saw
    its creation. -/
structure Witnessed (s : Session LogOp) (tup : Tuple) : Prop where
  xmin : tup.xmin < s.mgr.nextTxnId
  xmax : tup.xmax = infinityTxn ∨ tup.xmax ∈ s.mgr.abortedXids ∨
    ∃ y, s.txns tup.xmax = some y ∧ y.snapshot.Covers tup.xmin

def AllWitnessed (db : Database) : Prop :=
  ∀ t rid tup, Stored db t rid tup → Witnessed db.session tup

section
variable {s s' : Session LogOp}

theorem Witnessed.xmax_lt (h : Witnessed s tup) (hi : s.Inv) :
    tup.xmax = infinityTxn ∨ tup.xmax < s.mgr.nextTxnId := by
  obtain hnone | haborted | ⟨y, hy, -⟩ := h.xmax
  · exact .inl hnone
  · exact .inr (hi.aborted_lt haborted)
  · exact .inr (hi.handle hy).2.2.1

theorem Witnessed.step (h : Witnessed s tup) (hi : s.Inv) (call : TxnCall) : Witnessed (s.step call) tup := by
  have hlater := (s.step_effect call).later hi
  refine ⟨h.xmin.trans_le hlater.next_le, ?_⟩
  obtain hnone | haborted | ⟨y, hy, hcov⟩ := h.xmax
  · exact .inl hnone
  · exact .inr (.inl (s.abortedXids_subset call haborted))
  · obtain ⟨y', hy', hsnapshot, -⟩ := hlater.keep hy
    exact .inr (.inr ⟨y', hy', by rwa [hsnapshot]⟩)

end

/-! ## Calls on the manager -/

section
variable {s : Session LogOp}

end

section
variable {s s' : Session LogOp}

end

/-- A property that neither a stamp nor a new version has anything to do with. -/
theorem Rewrites.versionsWith_eq {P : Tuple → Prop} (h : Rewrites txn db db') (hs' : Sound C tr db' v')
    (hmarks : ∀ old new, Marks db.mgr txn old new → (P new ↔ P old))
    (hfresh : ∀ tup : Tuple, tup.xmin = txn.txnId → tup.xmax = infinityTxn → ¬P tup) :
    versionsWith db' P = versionsWith db P := by
  ext ⟨t, rid, values⟩
  constructor
  · rintro ⟨new, hnew, hvalues, hp⟩
    obtain ⟨old, hold, hm⟩ | ⟨-, hxmin, hxmax⟩ := h.cases hs' hnew
    · exact ⟨old, hold, hm.rowValues_eq.symm.trans hvalues, (hmarks _ _ hm).mp hp⟩
    · exact absurd hp (hfresh new hxmin hxmax)
  · rintro ⟨old, hold, hvalues, hp⟩
    obtain ⟨new, hnew, hm⟩ := h.kept t rid old hold
    exact ⟨new, hnew, hm.rowValues_eq.trans hvalues, (hmarks _ _ hm).mpr hp⟩

section
variable {snapshot : Snapshot}

/-- What snapshots see that do not cover the transaction. -/
theorem Rewrites.seen_eq (h : Rewrites txn db db') (hs' : Sound C tr db' v')
    (hunseen : ¬snapshot.Covers txn.txnId) :
    versionsWith db' (fun tup => sees db.mgr snapshot tup = true) =
      versionsWith db fun tup => sees db.mgr snapshot tup = true := by
  refine h.versionsWith_eq hs' (fun old new hm => by rw [hm.successor.sees_eq hunseen]) fun tup hxmin _ => ?_
  rw [sees_iff, hxmin]
  exact fun hsees => hunseen hsees.1.2

end

/-- The events that a call is made of. -/
def Call.Makes (db : Database) (call : Call) : Event Version → Prop
  | .begin n => call.Manages db .begin ∧ n = db.mgr.nextTxnId
  | .write n _ _ => ∃ stmt txn, stmt.OnRows ∧ call.RunsIn db stmt txn ∧ n = txn.txnId
  | .commit n _ _ => call.Manages db (.commit n)
  | .abort n => call.Manages db (.abort n)

/-- A call as it is meant to be made: a transaction that has ended writes no rows. Nothing is said
    of a reopening. -/
def Call.Proper (db : Database) : Call → Prop
  | .execute stmt (some t) => stmt.OnRows → ∀ txn, db.session.txns t = some txn → txn.state = .active
  | .reopen => False
  | _ => True

/-- A part of a call is a few events, as long as the reserved id is not given out. -/
structure Simulated (db₀ : Database) (call : Call) (db db' : Database) : Prop where
  next_le : db.mgr.nextTxnId ≤ db'.mgr.nextTxnId
  events : db'.mgr.nextTxnId ≤ infinityTxn → AllWitnessed db → AllWitnessed db' ∧
    ∃ es, SnapshotStore.Steps (store db) es (store db') ∧ ∀ e ∈ es, call.Makes db₀ e

section
variable {db₀ : Database} {call : Call}

theorem Simulated.refl (db₀ : Database) (call : Call) (db : Database) : Simulated db₀ call db db :=
  ⟨le_rfl, fun _ hall => ⟨hall, [], .nil, List.forall_mem_nil _⟩⟩

theorem Simulated.trans (h : Simulated db₀ call db db₁) (h' : Simulated db₀ call db₁ db₂) :
    Simulated db₀ call db db₂ where
  next_le := h.next_le.trans h'.next_le
  events hlimit hall := by
    obtain ⟨hall₁, es, hsteps, hmakes⟩ := h.events (h'.next_le.trans hlimit) hall
    obtain ⟨hall₂, es', hsteps', hmakes'⟩ := h'.events hlimit hall₁
    exact ⟨hall₂, es ++ es', hsteps.append hsteps', List.forall_mem_append.mpr ⟨hmakes, hmakes'⟩⟩

/-- What leaves the versions and the transactions alone is no event. -/
theorem Simulated.of_same (hstored : ∀ t rid tup, Stored db' t rid tup ↔ Stored db t rid tup)
    (htxns : db'.session.txns = db.session.txns) (hnext : db'.mgr.nextTxnId = db.mgr.nextTxnId)
    (hactive : db'.mgr.activeXids = db.mgr.activeXids)
    (haborted : db'.mgr.abortedXids = db.mgr.abortedXids) : Simulated db₀ call db db' := by
  refine ⟨hnext.ge, fun _ hall => ⟨fun t rid tup hmem => ?_, ?_⟩⟩
  · obtain ⟨hxmin, hxmax⟩ := hall t rid tup ((hstored t rid tup).mp hmem)
    rw [← htxns, ← mgr, ← haborted] at hxmax
    exact ⟨hxmin.trans_eq hnext.symm, hxmax⟩
  · rw [store_congr hstored htxns hnext hactive haborted]
    exact ⟨[], .nil, List.forall_mem_nil _⟩

end

/-! ## Runs -/

/-- The states that proper calls lead to from a new database. -/
inductive ProperRun (C : Conversions) : Database → Prop where
  | fresh : ProperRun C fresh
  | call {db db' : Database} {call : Call} (h : ProperRun C db) (step : Step C db call db')
      (proper : call.Proper db) : ProperRun C db'

theorem ProperRun.reachable (h : ProperRun C db) : Reachable C db := by
  induction h with
  | fresh => exact .fresh
  | call _ step _ ih => exact .call ih step

end Database
end Minirel
