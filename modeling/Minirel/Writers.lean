-- SUMMARY: Interleaved UPDATE and DELETE statements with materialised match lists, and the absence of lost updates.
import Minirel.Mvcc
import Mathlib.Data.List.Nodup

/-!
# Concurrent writers

`UPDATE` and `DELETE` first collect the rows their transaction sees and then
treat them one by one, each as the heap has it by then. A `Writers` state adds
to the heap the match lists of the statements in progress, so that the rows of
different statements interleave, and two histories: which version was stamped by
whom, and which new version replaced which old one.
-/

namespace Minirel

variable {π ρ : Type}

inductive DmlKind where
  | update
  | delete
  deriving DecidableEq, Repr

/-- A statement in progress: the matches it has not treated yet. -/
structure Running where
  kind : DmlKind
  rest : List RID

structure Writers (π ρ : Type) where
  db : Mvcc π ρ
  running : Nat → Option Running
  stamps : List (RID × Nat)
  successors : List (RID × RID × Nat)

namespace Writers

def init (db : Mvcc π ρ) : Writers π ρ := ⟨db, fun _ => none, [], []⟩

/-- How the body of the `UPDATE` loop goes on around the stamp: the assigned
    expressions may raise before it, the row encoding or the heap insertion after
    it, and the index insertions once the new version is stored. -/
inductive RowOutcome (ρ : Type) where
  | evaluateRaises
  | encodeRaises
  | stored (newRid : RID) (row : ρ) (indexRaises : Bool)

inductive Action (ρ : Type) where
  | call (c : TxnCall)
  | insert (t : Nat) (rid : RID) (row : ρ)
  | start (t : Nat) (kind : DmlKind) (matched : List RID)
  | row (t : Nat) (outcome : RowOutcome ρ)

/-- The statement of `t` goes on with `rest`. -/
def goOn (s : Writers π ρ) (t : Nat) (kind : DmlKind) (rest : List RID) : Writers π ρ :=
  { s with running := Function.update s.running t (some ⟨kind, rest⟩) }

/-- The statement of `t` is over, returning or raising. -/
def stop (s : Writers π ρ) (t : Nat) : Writers π ρ :=
  { s with running := Function.update s.running t none }

/-- `update_in_place` of a stamped tuple. -/
def stamped (s : Writers π ρ) (t : Nat) (rid : RID) (new : HeapTuple ρ) : Writers π ρ :=
  { s with
    db := { s.db with heap := Function.update s.db.heap rid (some new) }
    stamps := (rid, t) :: s.stamps }

/-- The new version that an `UPDATE` by `t` puts in place of `rid`. -/
def succeeded (s : Writers π ρ) (t : Nat) (rid newRid : RID) (tup : HeapTuple ρ) : Writers π ρ :=
  { s with
    db := { s.db with heap := Function.update s.db.heap newRid (some tup) }
    successors := (rid, newRid, t) :: s.successors }

/-- What follows the stamp. `none`: the heap never assigns a live identifier. -/
def afterStamp (s : Writers π ρ) (txn : Transaction) (kind : DmlKind) (rid : RID)
    (rest : List RID) (outcome : RowOutcome ρ) : Option (Writers π ρ) :=
  match kind, outcome with
  | .delete, _ => some (s.goOn txn.txnId kind rest)
  | .update, .stored newRid row indexRaises =>
    match packTuple txn.txnId infinityTxn row with
    | .error _ => some (s.stop txn.txnId)
    | .ok tup =>
      if (s.db.heap newRid).isSome then none
      else
        let s := s.succeeded txn.txnId rid newRid tup
        some (if indexRaises then s.stop txn.txnId else s.goOn txn.txnId kind rest)
  | .update, _ => some (s.stop txn.txnId)

/-- One turn of the loop over the matches. -/
def rowStep (s : Writers π ρ) (txn : Transaction) (st : Running) (outcome : RowOutcome ρ) :
    Option (Writers π ρ) :=
  match st.rest with
  | [] => some (s.stop txn.txnId)
  | rid :: rest =>
    match s.db.heap rid with
    | none => some (s.goOn txn.txnId st.kind rest)
    | some raw =>
      match s.db.session.mgr.checkWriteConflict txn raw.xmax with
      | .error _ => some (s.stop txn.txnId)
      | .ok () =>
        match st.kind, outcome with
        | .update, .evaluateRaises => some (s.stop txn.txnId)
        | kind, outcome =>
          match withXmax raw txn.txnId with
          | .error _ => some (s.stop txn.txnId)
          | .ok new => (s.stamped txn.txnId rid new).afterStamp txn kind rid rest outcome

/-- The versions a snapshot sees, as the scans of a row-source plan test them. -/
def sees (s : Writers π ρ) (snapshot : Snapshot) (rid : RID) : Bool :=
  match s.db.heap rid with
  | none => false
  | some raw => s.db.session.mgr.isVisible raw.xmin raw.xmax snapshot

def step (s : Writers π ρ) : Action ρ → Option (Writers π ρ)
  | .call c => some { s with db := { s.db with session := s.db.session.step c } }
  | .insert t rid row => do
    let txn ← s.db.session.txns t
    let tup ← (packTuple txn.txnId infinityTxn row).toOption
    if (s.db.heap rid).isSome then none
    else some { s with db := { s.db with heap := Function.update s.db.heap rid (some tup) } }
  | .start t kind matched => do
    let txn ← s.db.session.txns t
    if (s.running t).isNone ∧ matched.Nodup ∧ (∀ rid ∈ matched, s.sees txn.snapshot rid = true) then
      some (s.goOn t kind matched)
    else none
  | .row t outcome => do
    let txn ← s.db.session.txns t
    let st ← s.running t
    s.rowStep txn st outcome

inductive Reachable : Writers π ρ → Prop where
  | init (wal : WriteAheadLog π) (nextTxnId : Nat) (abortedXids : Finset Nat)
      (heap : RID → Option (HeapTuple ρ)) (h : ∀ t ∈ abortedXids, t < nextTxnId) :
      Reachable (init (.init wal nextTxnId abortedXids heap))
  | step {s s' : Writers π ρ} (a : Action ρ) (hs : Reachable s) (h : s.step a = some s') :
      Reachable s'

/-- No update is lost: of the transactions that stamped a version at most one is
    not aborted, so at most one has committed, and a version has at most one
    successor that is not aborted. -/
structure NoLostUpdate (s : Writers π ρ) : Prop where
  one_stamp : ∀ {rid t u}, (rid, t) ∈ s.stamps → (rid, u) ∈ s.stamps →
    t ∉ s.db.session.mgr.abortedXids → u ∉ s.db.session.mgr.abortedXids → t = u
  one_commit : ∀ {rid t u x y}, (rid, t) ∈ s.stamps → (rid, u) ∈ s.stamps →
    s.db.session.txns t = some x → x.state = .committed →
    s.db.session.txns u = some y → y.state = .committed → t = u
  one_successor : ∀ {rid r r' t u}, (rid, r, t) ∈ s.successors → (rid, r', u) ∈ s.successors →
    t ∉ s.db.session.mgr.abortedXids → u ∉ s.db.session.mgr.abortedXids → r = r'

/-! ## The invariant -/

/-- What ties the histories to the heap. A stamp of a transaction that has not
    aborted is still there, and no statement in progress will come to a version
    its own transaction has stamped. -/
structure Inv (s : Writers π ρ) : Prop where
  session : s.db.session.Inv
  holder : ∀ {rid t}, (rid, t) ∈ s.stamps → ∃ x, s.db.session.txns t = some x
  live : ∀ {rid t}, (rid, t) ∈ s.stamps → t ∉ s.db.session.mgr.abortedXids →
    ∃ raw, s.db.heap rid = some raw ∧ raw.xmax = t
  successor : ∀ {rid r t}, (rid, r, t) ∈ s.successors → (rid, t) ∈ s.stamps
  unique : ∀ {rid r r' t}, (rid, r, t) ∈ s.successors → (rid, r', t) ∈ s.successors →
    t ∉ s.db.session.mgr.abortedXids → r = r'
  pending : ∀ {t st}, s.running t = some st → st.rest.Nodup ∧
    ∀ rid ∈ st.rest, t ∉ s.db.session.mgr.abortedXids → (rid, t) ∉ s.stamps

theorem inv_init (wal : WriteAheadLog π) {n : Nat} {aborted : Finset Nat}
    (heap : RID → Option (HeapTuple ρ)) (h : ∀ t ∈ aborted, t < n) :
    (init (.init wal n aborted heap)).Inv where
  session := Session.inv_init wal h
  holder h := by simp [init] at h
  live h := by simp [init] at h
  successor h := by simp [init] at h
  unique h := by simp [init] at h
  pending h := by simp [init] at h

theorem Inv.noLostUpdate {s : Writers π ρ} (hi : s.Inv) : s.NoLostUpdate := by
  have hone : ∀ {rid t u}, (rid, t) ∈ s.stamps → (rid, u) ∈ s.stamps →
      t ∉ s.db.session.mgr.abortedXids → u ∉ s.db.session.mgr.abortedXids → t = u := by
    intro rid t u ht hu hta hua
    obtain ⟨raw, hraw, rfl⟩ := hi.live ht hta
    obtain ⟨raw', hraw', rfl⟩ := hi.live hu hua
    rw [hraw] at hraw'
    cases hraw'
    rfl
  constructor
  case one_stamp => exact hone
  case one_commit =>
    intro rid t u x y ht hu hx hxc hy hyc
    refine hone ht hu ?_ ?_
    · rw [← hi.session.aborted_iff hx, hxc]; simp
    · rw [← hi.session.aborted_iff hy, hyc]; simp
  case one_successor =>
    intro rid r r' t u hr hr' hta hua
    obtain rfl := hone (hi.successor hr) (hi.successor hr') hta hua
    exact hi.unique hr hr' hta

/-! ## What an action keeps -/

theorem Inv.stop {s : Writers π ρ} (hi : s.Inv) (t : Nat) : (s.stop t).Inv where
  session := hi.session
  holder := hi.holder
  live := hi.live
  successor := hi.successor
  unique := hi.unique
  pending {u st} h := by
    simp only [Writers.stop] at h
    by_cases hu : u = t
    · subst hu
      rw [Function.update_self] at h
      cases h
    · rw [Function.update_of_ne hu] at h
      exact hi.pending h

theorem Inv.goOn {s : Writers π ρ} (hi : s.Inv) {t : Nat} {kind : DmlKind} {rest : List RID}
    (hnodup : rest.Nodup)
    (hrest : ∀ rid ∈ rest, t ∉ s.db.session.mgr.abortedXids → (rid, t) ∉ s.stamps) :
    (s.goOn t kind rest).Inv where
  session := hi.session
  holder := hi.holder
  live := hi.live
  successor := hi.successor
  unique := hi.unique
  pending {u st} h := by
    simp only [Writers.goOn] at h
    by_cases hu : u = t
    · subst hu
      rw [Function.update_self] at h
      cases h
      exact ⟨hnodup, hrest⟩
    · rw [Function.update_of_ne hu] at h
      exact hi.pending h

/-- A stamp overwrites only `infinityTxn`, the transaction's own stamp, or that of
    an aborted transaction. -/
theorem Inv.stamped {s : Writers π ρ} (hi : s.Inv) (hinf : s.db.session.txns infinityTxn = none)
    {txn : Transaction} {rid : RID} {raw new : HeapTuple ρ}
    (htxn : s.db.session.txns txn.txnId = some txn) (hraw : s.db.heap rid = some raw)
    (hconf : s.db.session.mgr.checkWriteConflict txn raw.xmax = .ok ())
    (hnew : withXmax raw txn.txnId = .ok new) (hidle : s.running txn.txnId = none) :
    (s.stamped txn.txnId rid new).Inv := by
  obtain ⟨-, hmax, -⟩ := withXmax_ok hnew
  constructor
  case session => exact hi.session
  case holder =>
    intro r t h
    simp only [Writers.stamped, List.mem_cons, Prod.mk.injEq] at h
    obtain ⟨rfl, rfl⟩ | h := h
    · exact ⟨txn, htxn⟩
    · exact hi.holder h
  case live =>
    intro r t h hta
    simp only [Writers.stamped, List.mem_cons, Prod.mk.injEq] at h hta ⊢
    by_cases hr : r = rid
    · subst hr
      refine ⟨new, Function.update_self .., ?_⟩
      obtain ⟨-, rfl⟩ | h := h
      · exact hmax
      · obtain ⟨raw', hraw', rfl⟩ := hi.live h hta
        rw [hraw] at hraw'
        cases hraw'
        obtain hx | hx | hx := TransactionManager.checkWriteConflict_ok_iff.mp hconf
        · obtain ⟨x, hx'⟩ := hi.holder h
          rw [hx, hinf] at hx'
          cases hx'
        · rw [hmax, hx]
        · exact absurd hx hta
    · obtain ⟨rfl, -⟩ | h := h
      · exact absurd rfl hr
      · obtain ⟨raw', hraw', hx⟩ := hi.live h hta
        exact ⟨raw', by rwa [Function.update_of_ne hr], hx⟩
  case successor =>
    intro r r' t h
    exact List.mem_cons_of_mem _ (hi.successor h)
  case unique => exact hi.unique
  case pending =>
    intro t st h
    obtain ⟨hnd, hst⟩ := hi.pending h
    refine ⟨hnd, fun r hr hta hmem => ?_⟩
    simp only [Writers.stamped, List.mem_cons, Prod.mk.injEq] at hmem
    obtain ⟨-, rfl⟩ | hmem := hmem
    · simp only [Writers.stamped] at h
      rw [hidle] at h
      cases h
    · exact hst r hr hta hmem

theorem Inv.succeeded {s : Writers π ρ} (hi : s.Inv) {t : Nat} {rid newRid : RID}
    (tup : HeapTuple ρ) (hfresh : s.db.heap newRid = none) (hstamp : (rid, t) ∈ s.stamps)
    (hnone : t ∉ s.db.session.mgr.abortedXids → ∀ r, (rid, r, t) ∉ s.successors) :
    (s.succeeded t rid newRid tup).Inv := by
  constructor
  case session => exact hi.session
  case holder => exact hi.holder
  case live =>
    intro r u h hua
    obtain ⟨raw, hraw, hx⟩ := hi.live h hua
    have hr : r ≠ newRid := by
      rintro rfl
      rw [hfresh] at hraw
      cases hraw
    exact ⟨raw, by simpa [Writers.succeeded, Function.update_of_ne hr] using hraw, hx⟩
  case successor =>
    intro r r' u h
    simp only [Writers.succeeded, List.mem_cons, Prod.mk.injEq] at h
    obtain ⟨rfl, -, rfl⟩ | h := h
    · exact hstamp
    · exact hi.successor h
  case unique =>
    intro r r₁ r₂ u h₁ h₂ hua
    simp only [Writers.succeeded, List.mem_cons, Prod.mk.injEq] at h₁ h₂
    obtain ⟨rfl, rfl, rfl⟩ | h₁ := h₁
    · obtain ⟨-, rfl, -⟩ | h₂ := h₂
      · rfl
      · exact absurd h₂ (hnone hua _)
    · obtain ⟨rfl, rfl, rfl⟩ | h₂ := h₂
      · exact absurd h₁ (hnone hua _)
      · exact hi.unique h₁ h₂ hua
  case pending => exact hi.pending

/-- A call only ends transactions, so it only takes obligations away. -/
theorem Inv.call {s : Writers π ρ} (hi : s.Inv) (c : TxnCall) :
    Inv { s with db := { s.db with session := s.db.session.step c } } := by
  have hsub : ∀ {t}, t ∉ (s.db.session.step c).mgr.abortedXids → t ∉ s.db.session.mgr.abortedXids := by
    intro t h hmem
    obtain heq | ⟨u, -, -, heq⟩ := hi.session.abortedXids_step c
    · exact h (heq ▸ hmem)
    · exact h (heq ▸ Finset.mem_insert_of_mem hmem)
  constructor
  case session => exact hi.session.step c
  case holder =>
    intro rid t h
    obtain ⟨x, hx⟩ := hi.holder h
    obtain ⟨x', hx', -⟩ := ((Session.step_effect _ c).later hi.session).keep hx
    exact ⟨x', hx'⟩
  case live => exact fun h hta => hi.live h (hsub hta)
  case successor => exact hi.successor
  case unique => exact fun h h' hta => hi.unique h h' (hsub hta)
  case pending =>
    intro t st h
    obtain ⟨hnd, hst⟩ := hi.pending h
    exact ⟨hnd, fun rid hrid hta => hst rid hrid (hsub hta)⟩

theorem Inv.insert {s : Writers π ρ} (hi : s.Inv) {rid : RID} {tup : HeapTuple ρ}
    (hfresh : s.db.heap rid = none) :
    Inv { s with db := { s.db with heap := Function.update s.db.heap rid (some tup) } } where
  session := hi.session
  holder := hi.holder
  live {r t} h hta := by
    obtain ⟨raw, hraw, hx⟩ := hi.live h hta
    have hr : r ≠ rid := by
      rintro rfl
      rw [hfresh] at hraw
      cases hraw
    exact ⟨raw, by simpa [Function.update_of_ne hr] using hraw, hx⟩
  successor := hi.successor
  unique := hi.unique
  pending := hi.pending

/-- A statement collects only versions its transaction has not stamped: its own
    stamps are deletions it sees. -/
theorem Inv.start {s : Writers π ρ} (hi : s.Inv) (hinf : s.db.session.txns infinityTxn = none)
    {t : Nat} {txn : Transaction} {kind : DmlKind} {matched : List RID}
    (htxn : s.db.session.txns t = some txn) (hnodup : matched.Nodup)
    (hsees : ∀ rid ∈ matched, s.sees txn.snapshot rid = true) : (s.goOn t kind matched).Inv := by
  refine hi.goOn hnodup fun rid hrid hta hmem => ?_
  obtain ⟨raw, hraw, hx⟩ := hi.live hmem hta
  have hvis := hsees rid hrid
  simp only [sees, hraw, TransactionManager.isVisible_iff, hx] at hvis
  obtain ⟨-, h | h | h⟩ := hvis
  · rw [h, hinf] at htxn
    cases htxn
  · exact hta h
  · exact h (.inl (hi.session.handle htxn).2.1.symm)

/-- Whatever follows the stamp ends by setting the statement's match list, so the
    list may as well be taken off first. -/
theorem afterStamp_stop (s : Writers π ρ) (txn : Transaction) (kind : DmlKind) (rid : RID)
    (rest : List RID) (outcome : RowOutcome ρ) :
    (s.stop txn.txnId).afterStamp txn kind rid rest outcome =
      s.afterStamp txn kind rid rest outcome := by
  unfold afterStamp
  split
  · simp [Writers.goOn, Writers.stop]
  · split
    · simp [Writers.stop]
    · simp [Writers.goOn, Writers.stop, Writers.succeeded]
  · simp [Writers.stop]

theorem Inv.afterStamp {s s' : Writers π ρ} (hi : s.Inv) {txn : Transaction} {kind : DmlKind}
    {rid : RID} {rest : List RID} {outcome : RowOutcome ρ} (hstamp : (rid, txn.txnId) ∈ s.stamps)
    (hnone : txn.txnId ∉ s.db.session.mgr.abortedXids → ∀ r, (rid, r, txn.txnId) ∉ s.successors)
    (hnodup : rest.Nodup)
    (hrest : ∀ r ∈ rest, txn.txnId ∉ s.db.session.mgr.abortedXids → (r, txn.txnId) ∉ s.stamps)
    (h : s.afterStamp txn kind rid rest outcome = some s') : s'.Inv := by
  unfold Writers.afterStamp at h
  split at h
  · cases h
    exact hi.goOn hnodup hrest
  · rename_i newRid row indexRaises
    split at h
    · cases h
      exact hi.stop _
    · rename_i tup htup
      split at h
      · cases h
      · rename_i hsome
        have hs := hi.succeeded tup (Option.not_isSome_iff_eq_none.mp hsome) hstamp hnone
        cases h
        split
        · exact hs.stop _
        · exact hs.goOn hnodup hrest
  · cases h
    exact hi.stop _

/-- A turn of the loop drops its row from the match list before it comes back. -/
theorem Inv.rowStep {s s' : Writers π ρ} (hi : s.Inv)
    (hinf : s.db.session.txns infinityTxn = none) {txn : Transaction} {st : Running}
    {outcome : RowOutcome ρ} (htxn : s.db.session.txns txn.txnId = some txn)
    (hrun : s.running txn.txnId = some st) (h : s.rowStep txn st outcome = some s') : s'.Inv := by
  obtain ⟨hnodup, hpending⟩ := hi.pending hrun
  unfold Writers.rowStep at h
  split at h
  · cases h
    exact hi.stop _
  · rename_i rid rest hst
    rw [hst, List.nodup_cons] at hnodup
    have hrest : ∀ r ∈ rest, txn.txnId ∉ s.db.session.mgr.abortedXids → (r, txn.txnId) ∉ s.stamps :=
      fun r hr => hpending r (by simp [hst, hr])
    have hhead : txn.txnId ∉ s.db.session.mgr.abortedXids → (rid, txn.txnId) ∉ s.stamps :=
      hpending rid (by simp [hst])
    split at h
    · cases h
      exact hi.goOn hnodup.2 hrest
    · rename_i raw hraw
      split at h
      · cases h
        exact hi.stop _
      · rename_i hconf
        split at h
        · cases h
          exact hi.stop _
        · split at h
          · cases h
            exact hi.stop _
          · rename_i new hnew
            have hs : ((s.stamped txn.txnId rid new).stop txn.txnId).Inv :=
              (hi.stop txn.txnId).stamped hinf htxn hraw hconf hnew (by simp [Writers.stop])
            rw [← afterStamp_stop] at h
            refine hs.afterStamp (by simp [Writers.stop, Writers.stamped]) ?_ hnodup.2 ?_ h
            · exact fun hta r hr => hhead hta (hi.successor hr)
            · intro r hr hta hmem
              simp only [Writers.stop, Writers.stamped, List.mem_cons, Prod.mk.injEq] at hmem
              obtain ⟨rfl, -⟩ | hmem := hmem
              · exact hnodup.1 hr
              · exact hrest r hr hta hmem

/-! ## Runs -/

theorem afterStamp_session {s s' : Writers π ρ} {txn : Transaction} {kind : DmlKind} {rid : RID}
    {rest : List RID} {outcome : RowOutcome ρ}
    (h : s.afterStamp txn kind rid rest outcome = some s') : s'.db.session = s.db.session := by
  unfold afterStamp at h
  split at h
  · cases h; rfl
  · split at h
    · cases h; rfl
    · split at h
      · cases h
      · cases h
        split <;> rfl
  · cases h; rfl

theorem rowStep_session {s s' : Writers π ρ} {txn : Transaction} {st : Running}
    {outcome : RowOutcome ρ} (h : s.rowStep txn st outcome = some s') :
    s'.db.session = s.db.session := by
  unfold rowStep at h
  split at h
  · cases h; rfl
  · split at h
    · cases h; rfl
    · split at h
      · cases h; rfl
      · split at h
        · cases h; rfl
        · split at h
          · cases h; rfl
          · exact (afterStamp_session h).trans rfl

/-- One action keeps the invariant, and the handles there are. -/
theorem Inv.step {s s' : Writers π ρ} {a : Action ρ} (hi : s.Inv)
    (hinf : s.db.session.txns infinityTxn = none) (h : s.step a = some s') : s'.Inv := by
  cases a with
  | call c =>
    cases h
    exact hi.call c
  | insert t rid row =>
    simp only [Writers.step, Option.bind_eq_bind, Option.bind_eq_some_iff,
      toOption_eq_some] at h
    obtain ⟨txn, htxn, tup, htup, h⟩ := h
    split at h
    · cases h
    · rename_i hsome
      cases h
      exact hi.insert (Option.not_isSome_iff_eq_none.mp hsome)
  | start t kind matched =>
    simp only [Writers.step, Option.bind_eq_bind, Option.bind_eq_some_iff] at h
    obtain ⟨txn, htxn, h⟩ := h
    split at h
    · rename_i hc
      cases h
      exact hi.start hinf htxn hc.2.1 hc.2.2
    · cases h
  | row t outcome =>
    simp only [Writers.step, Option.bind_eq_bind, Option.bind_eq_some_iff] at h
    obtain ⟨txn, htxn, st, hst, h⟩ := h
    obtain rfl := (hi.session.handle htxn).1
    exact hi.rowStep hinf htxn hst h

theorem step_later {s s' : Writers π ρ} {a : Action ρ} (hi : s.db.session.Inv)
    (h : s.step a = some s') :
    s'.db.session.Inv ∧ Session.Later s.db.session s'.db.session := by
  cases a with
  | call c =>
    cases h
    exact ⟨hi.step c, (Session.step_effect _ c).later hi⟩
  | insert t rid row =>
    simp only [Writers.step, Option.bind_eq_bind, Option.bind_eq_some_iff] at h
    obtain ⟨txn, -, tup, -, h⟩ := h
    split at h
    · cases h
    · cases h
      exact ⟨hi, .refl _⟩
  | start t kind matched =>
    simp only [Writers.step, Option.bind_eq_bind, Option.bind_eq_some_iff] at h
    obtain ⟨txn, -, h⟩ := h
    split at h
    · cases h
      exact ⟨hi, .refl _⟩
    · cases h
  | row t outcome =>
    simp only [Writers.step, Option.bind_eq_bind, Option.bind_eq_some_iff] at h
    obtain ⟨txn, -, st, -, h⟩ := h
    rw [rowStep_session h]
    exact ⟨hi, .refl _⟩

theorem Reachable.inv {s : Writers π ρ} (hs : Reachable s) :
    s.db.session.Inv ∧ (s.db.session.txns infinityTxn = none → s.Inv) := by
  induction hs with
  | init wal n aborted heap h =>
    exact ⟨Session.inv_init wal h, fun _ => inv_init wal heap h⟩
  | step a _ h ih =>
    obtain ⟨hi, hl⟩ := step_later ih.1 h
    refine ⟨hi, fun hnone => ?_⟩
    -- handles are never dropped, so the id had not been handed out before either
    rename_i s s' _
    have hbefore : s.db.session.txns infinityTxn = none := by
      cases hx : s.db.session.txns infinityTxn with
      | none => rfl
      | some x =>
        obtain ⟨x', hx', -⟩ := hl.keep hx
        rw [hnone] at hx'
        cases hx'
    exact (ih.2 hbefore).step hbefore h

/-- In a run that never hands out the id `0xFFFFFFFF`, no update is lost. -/
theorem noLostUpdate_of_reachable {s : Writers π ρ} (hs : Reachable s)
    (hinf : s.db.session.txns infinityTxn = none) : s.NoLostUpdate :=
  (hs.inv.2 hinf).noLostUpdate

/-- One version, deleted by the transaction `1`. -/
theorem noLostUpdate_of_reachable_delete : ∃ s : Writers Unit Nat,
    (⟨0, 0⟩, 1) ∈ s.stamps ∧ s.NoLostUpdate := by
  have h₀ : Reachable (init (.init .empty 1 ∅
      (Function.update (fun _ => none) ⟨0, 0⟩ (some ⟨0, infinityTxn, 7, by decide, by decide⟩))) :
      Writers Unit Nat) := .init _ _ _ _ (by simp)
  have h₁ := h₀.step (.call .begin) rfl
  have h₂ := h₁.step (.start 1 .delete [⟨0, 0⟩]) rfl
  have h₃ := h₂.step (.row 1 .evaluateRaises) rfl
  exact ⟨_, List.mem_cons_self, noLostUpdate_of_reachable h₃ (by decide)⟩

/-- The id `0xFFFFFFFF` is also the mark for "not deleted". The transaction that
    gets it deletes the version, the one before it deletes it again, and both
    commit. -/
theorem not_noLostUpdate_of_sentinel :
    ¬∀ s : Writers Unit Nat, Reachable s → s.NoLostUpdate := by
  intro h
  have h₀ : Reachable (init (.init .empty 4294967294 ∅
      (Function.update (fun _ => none) ⟨0, 0⟩ (some ⟨0, infinityTxn, 7, by decide, by decide⟩))) :
      Writers Unit Nat) := .init _ _ _ _ (by simp)
  have h₁ := (h₀.step (.call .begin) rfl).step (.call .begin) rfl
  have h₂ := h₁.step (.start 4294967295 .delete [⟨0, 0⟩]) rfl
  have h₃ := h₂.step (.row 4294967295 .evaluateRaises) rfl
  have h₄ := h₃.step (.start 4294967294 .delete [⟨0, 0⟩]) rfl
  have h₅ := h₄.step (.row 4294967294 .evaluateRaises) rfl
  have h₆ := (h₅.step (.call (.commit 4294967295)) rfl).step (.call (.commit 4294967294)) rfl
  have hmem : ((⟨0, 0⟩, 4294967294) : RID × Nat) ∈ [(⟨0, 0⟩, 4294967294), (⟨0, 0⟩, 4294967295)] ∧
      ((⟨0, 0⟩, 4294967295) : RID × Nat) ∈ [(⟨0, 0⟩, 4294967294), (⟨0, 0⟩, 4294967295)] := by decide
  have heq := (h _ h₆).one_commit hmem.1 hmem.2 rfl rfl rfl rfl
  exact absurd heq (by decide)

end Writers
end Minirel
