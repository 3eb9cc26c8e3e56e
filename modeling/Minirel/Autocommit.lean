-- SUMMARY: An autocommit statement that raises leaves no trace in what any transaction sees.
import Minirel.Mvcc

/-!
# Failing autocommit statements

`Database.execute` without a transaction begins one, runs the statement in it and
aborts it when the statement raises. By then any number of row versions may have
been inserted and stamped. Nothing of this is undone: the tuples stay, and an
`xmax` that was overwritten stays overwritten.

What happens afterwards is compared with what would have happened had the
statement raised before its first write: the same actions of the other
transactions are possible, and every snapshot sees the same rows.
-/

namespace Minirel

variable {π ρ : Type}

namespace Mvcc

/-- A sequence of actions, all of which succeed. -/
def run (s : Mvcc π ρ) (as : List (Action ρ)) : Option (Mvcc π ρ) := as.foldlM step s

/-- The state after an autocommit statement that has raised before it wrote a row. A
    transaction that could not begin is not aborted. -/
def skip (s : Mvcc π ρ) : Mvcc π ρ :=
  if s.session.mgr.nextTxnId < 2 ^ 32 then
    { s with session := (s.session.step .begin).step (.abort s.session.mgr.nextTxnId) }
  else { s with session := s.session.step .begin }

/-- A tuple with and without the stamp of `t`. -/
structure SameTuple (m : TransactionManager π) (t : Nat) (tup tup' : HeapTuple ρ) : Prop where
  xmin : tup'.xmin = tup.xmin
  payload : tup'.payload = tup.payload
  xmax : tup'.xmax = tup.xmax ∨
    (tup.xmax = t ∧ (tup'.xmax = infinityTxn ∨ tup'.xmax ∈ m.abortedXids))

/-- What one heap holds that another lacks is the work of `t`. -/
inductive SameBut (m : TransactionManager π) (t : Nat) :
    Option (HeapTuple ρ) → Option (HeapTuple ρ) → Prop where
  | none : SameBut m t none none
  | created {tup : HeapTuple ρ} (h : tup.xmin = t) : SameBut m t (some tup) none
  | some {tup tup' : HeapTuple ρ} (h : SameTuple m t tup tup') :
      SameBut m t (some tup) (some tup')

/-- A state and what it would be without the work of the aborted `t`. -/
structure Without (t : Nat) (s s' : Mvcc π ρ) : Prop where
  session : s'.session = s.session
  aborted : t ∈ s.session.mgr.abortedXids
  heap : ∀ rid, SameBut s.session.mgr t (s.heap rid) (s'.heap rid)

theorem SameTuple.refl (m : TransactionManager π) (t : Nat) (tup : HeapTuple ρ) :
    SameTuple m t tup tup := ⟨rfl, rfl, .inl rfl⟩

theorem SameBut.refl (m : TransactionManager π) (t : Nat) (tup : Option (HeapTuple ρ)) :
    SameBut m t tup tup := by
  cases tup with
  | none => exact .none
  | some tup => exact .some (.refl m t tup)

theorem SameBut.mono {m m' : TransactionManager π} {t : Nat} {tup tup' : Option (HeapTuple ρ)}
    (h : SameBut m t tup tup') (hsub : m.abortedXids ⊆ m'.abortedXids) :
    SameBut m' t tup tup' := by
  cases h with
  | none => exact .none
  | created h => exact .created h
  | some h =>
    exact .some ⟨h.xmin, h.payload, h.xmax.imp id fun ⟨h₁, h₂⟩ => ⟨h₁, h₂.imp id fun h => hsub h⟩⟩

/-- One more tuple at the same place in both heaps. -/
theorem sameBut_update {m : TransactionManager π} {t : Nat} {heap heap' : RID → Option (HeapTuple ρ)}
    (h : ∀ rid, SameBut m t (heap rid) (heap' rid)) {rid : RID} {new new' : Option (HeapTuple ρ)}
    (hnew : SameBut m t new new') (rid' : RID) :
    SameBut m t (Function.update heap rid new rid') (Function.update heap' rid new' rid') := by
  by_cases hrid : rid' = rid
  · subst hrid
    simpa using hnew
  · simpa [Function.update_of_ne hrid] using h rid'

/-- The stamp of an aborted transaction deletes nothing. -/
theorem SameTuple.isVisible {m : TransactionManager π} {t : Nat} {tup tup' : HeapTuple ρ}
    (h : SameTuple m t tup tup') (ht : t ∈ m.abortedXids) (snapshot : Snapshot) :
    m.isVisible tup'.xmin tup'.xmax snapshot = m.isVisible tup.xmin tup.xmax snapshot := by
  rw [Bool.eq_iff_iff, TransactionManager.isVisible_iff, TransactionManager.isVisible_iff, h.xmin]
  obtain hmax | ⟨hmax, hmax'⟩ := h.xmax
  · rw [hmax]
  · simp only [hmax, ht, true_or, or_true, and_true]
    obtain hmax' | hmax' := hmax'
    · simp [hmax']
    · simp [hmax']

/-- An action of another transaction is possible without the work of `t` too, and
    has the same effect. -/
theorem Without.step {t : Nat} {s s' s₁ : Mvcc π ρ} (h : Without t s s') {a : Action ρ}
    (hstep : s.step a = some s₁) : ∃ s₁', s'.step a = some s₁' ∧ Without t s₁ s₁' := by
  have hcall : ∀ c, Without t { s with session := s.session.step c }
      { s' with session := s'.session.step c } := fun c => by
    have hsub := Session.abortedXids_subset s.session c
    exact ⟨by rw [h.session], hsub h.aborted, fun rid => (h.heap rid).mono hsub⟩
  cases a with
  | begin =>
    cases hstep
    exact ⟨_, rfl, hcall .begin⟩
  | commit u =>
    cases hstep
    exact ⟨_, rfl, hcall (.commit u)⟩
  | abort u =>
    cases hstep
    exact ⟨_, rfl, hcall (.abort u)⟩
  | insert u rid row =>
    obtain ⟨x, tup, hx, hact, hnone, htup, rfl⟩ := step_insert hstep
    have hnone' : s'.heap rid = none := by
      have hrid := h.heap rid
      rw [hnone] at hrid
      generalize s'.heap rid = tup' at hrid
      cases hrid
      rfl
    refine ⟨{ s' with heap := Function.update s'.heap rid (some tup) }, ?_, h.session, h.aborted,
      sameBut_update h.heap (.refl _ _ _)⟩
    have hx' : s'.activeTxn u = some x :=
      activeTxn_eq_some.mpr ⟨by rw [h.session]; exact hx, hact⟩
    simp [Mvcc.step, hx', htup, hnone', Except.toOption]
  | stamp u rid =>
    obtain ⟨x, raw, new, hx, hact, hraw, hvis, hconf, hnew, rfl⟩ := step_stamp hstep
    -- a version the transaction sees was not created by `t`
    have hmin : raw.xmin ≠ t := by
      rintro rfl
      exact (TransactionManager.isVisible_iff.mp hvis).1.1 h.aborted
    obtain ⟨raw', hraw', hsame⟩ : ∃ raw', s'.heap rid = some raw' ∧
        SameTuple s.session.mgr t raw raw' := by
      have hrid := h.heap rid
      rw [hraw] at hrid
      generalize s'.heap rid = tup' at hrid
      cases hrid with
      | created hmin' => exact absurd hmin' hmin
      | some hsame => exact ⟨_, rfl, hsame⟩
    have hconf' : s.session.mgr.checkWriteConflict x raw'.xmax = .ok () := by
      rw [TransactionManager.checkWriteConflict_ok_iff] at hconf ⊢
      obtain hmax | ⟨-, hmax⟩ := hsame.xmax
      · rwa [hmax]
      · exact hmax.imp id .inr
    obtain ⟨hmin', hmax', hpay'⟩ := withXmax_ok hnew
    have hlt : x.txnId < 2 ^ 32 := hmax' ▸ new.xmax_lt
    obtain ⟨stamped, hnew'⟩ : ∃ stamped, withXmax raw' x.txnId = .ok stamped :=
      ⟨_, withXmax_eq raw' hlt⟩
    obtain ⟨hsmin, hsmax, hspay⟩ := withXmax_ok hnew'
    refine ⟨{ s' with heap := Function.update s'.heap rid (some stamped) }, ?_, h.session,
      h.aborted, sameBut_update h.heap (.some ⟨?_, ?_, .inl (hsmax.trans hmax'.symm)⟩)⟩
    rotate_left
    · rw [hsmin, hsame.xmin, hmin']
    · rw [hspay, hsame.payload, hpay']
    have hx' : s'.activeTxn u = some x :=
      activeTxn_eq_some.mpr ⟨by rw [h.session]; exact hx, hact⟩
    have hvis' : s.session.mgr.isVisible raw'.xmin raw'.xmax x.snapshot = true := by
      rw [hsame.isVisible h.aborted]
      exact hvis
    simp [Mvcc.step, hx', hraw', unpackTupleHeader, hvis', h.session, hconf', hnew',
      Except.toOption]

theorem Without.run {t : Nat} {s s' s₁ : Mvcc π ρ} (h : Without t s s') {as : List (Action ρ)}
    (hrun : s.run as = some s₁) : ∃ s₁', s'.run as = some s₁' ∧ Without t s₁ s₁' := by
  induction as generalizing s s' with
  | nil =>
    cases hrun
    exact ⟨s', rfl, h⟩
  | cons a as ih =>
    obtain ⟨s₂, hstep, hrest⟩ := Option.bind_eq_some_iff.mp hrun
    obtain ⟨s₂', hstep', h₂⟩ := h.step hstep
    obtain ⟨s₁', hrun', h₁⟩ := ih h₂ hrest
    exact ⟨s₁', Option.bind_eq_some_iff.mpr ⟨s₂', hstep', hrun'⟩, h₁⟩

/-! ## The statement itself -/

end Mvcc
end Minirel
