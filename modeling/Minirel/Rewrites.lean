-- SUMMARY: What a statement does to the stored versions: it stamps some that it sees, and adds new ones.
import Minirel.FailedStatements

/-!
# Stamps of a statement

An UPDATE or a DELETE writes its stamp on versions that its plan has yielded, so that its
transaction sees them. Everything else in the heaps stays as it is, and what is new bears no
stamp. This is so whether the statement returns or raises.
-/

namespace Minirel
namespace Database

variable {C : Conversions} {tr : Tracked} {taken : Prop} {db db' : Database} {v v' : View}
  {mgr : TransactionManager LogOp} {table : TableMeta} {txn : Transaction} {c c₁ c' : Content}
  {t : String} {rid : RID} {rids rids' : List RID} {old new tup : Tuple} {stmt : Statement}

/-! ## What a statement leaves alone -/

/-- The versions that a row is written over. -/
def RowAct.targets : RowAct → List RID
  | .insert _ => []
  | .update _ rid | .delete rid => [rid]

/-- Only some versions are written over, and what is new bears no stamp. -/
structure Spares (rids : List RID) (t : String) (c c' : Content) : Prop where
  kept : ∀ x ∈ c.tuples t, x.1 ∉ rids → x ∈ c'.tuples t
  fresh : ∀ x ∈ c'.tuples t, ¬c.HasRid t x.1 → x.2.xmax = infinityTxn

theorem Spares.refl (rids : List RID) (t : String) (c : Content) : Spares rids t c c :=
  ⟨fun _ hx _ => hx, fun x hx hfresh => absurd ⟨x.2, hx⟩ hfresh⟩

theorem Spares.mono (h : Spares rids t c c') (hsub : rids ⊆ rids') : Spares rids' t c c' :=
  ⟨fun x hx hnot => h.kept x hx fun hmem => hnot (hsub hmem), h.fresh⟩

/-- What is new is not written over by the rows to come. -/
theorem Spares.trans (h : Spares rids t c c₁) (h' : Spares rids t c₁ c')
    (hhas : ∀ rid ∈ rids, c.HasRid t rid) (hnodup : ((c'.tuples t).map (·.1)).Nodup) :
    Spares rids t c c' where
  kept x hx hnot := h'.kept x (h.kept x hx hnot) hnot
  fresh x hx hfresh := by
    by_cases hhas₁ : c₁.HasRid t x.1
    · obtain ⟨y, hy⟩ := hhas₁
      have hy' : (x.1, y) ∈ c'.tuples t := h'.kept _ hy fun hmem => hfresh (hhas _ hmem)
      rw [eq_of_nodup hnodup hx hy']
      exact h.fresh _ hy hfresh
    · exact h'.fresh x hx hhas₁

theorem Spares.congr (h : Spares rids t c c₁) (heq : c'.tuples = c₁.tuples) : Spares rids t c c' := by
  obtain ⟨hkept, hfresh⟩ := h
  rw [← heq] at hkept hfresh
  exact ⟨hkept, hfresh⟩

/-- A stamp. -/
theorem spares_set (c : Content) (t : String) (rid : RID) (new : Tuple) :
    Spares [rid] t c (c.set t rid new) where
  kept x hx hnot := by
    rw [tuples_set, overwrite_eq]
    refine List.mem_map.mpr ⟨x, hx, ?_⟩
    rw [if_neg fun heq => hnot (List.mem_singleton.mpr heq)]
  fresh x hx hfresh := by
    rw [tuples_set, overwrite_eq] at hx
    obtain ⟨y, hy, rfl⟩ := List.mem_map.mp hx
    exact absurd ⟨y.2, hy⟩ hfresh

/-- A new version. -/
theorem spares_add (c : Content) (t : String) (hnew : tup.xmax = infinityTxn) :
    Spares [] t c (c.add t (rid, tup)) where
  kept x hx _ := by
    rw [tuples_add]
    exact List.mem_append_left _ hx
  fresh x hx hfresh := by
    rw [tuples_add, List.mem_append, List.mem_singleton] at hx
    obtain hx | rfl := hx
    · exact absurd ⟨x.2, hx⟩ hfresh
    · exact hnew

theorem RowPart.spares {a : RowAct} (h : RowPart C mgr table txn taken a c c')
    (hnodup : ((c.tuples table.name).map (·.1)).Nodup) : Spares a.targets table.name c c' := by
  have hevolves := h.evolves hnodup
  cases h with
  | insert refused new n => exact (spares_add c _ new.version.xmax).congr (Content.tuples_addKeys ..)
  | stamp stamp assigned named refused => exact spares_set ..
  | @update _ _ _ _ old rid raw stamped tup refused stamp assigned new n =>
    have hset := spares_set c table.name old stamped
    have hadd : Spares [] table.name (c.set table.name old stamped) (.add _ table.name (rid, tup)) :=
      spares_add _ _ new.version.xmax
    have hnodup' := hevolves.nodup
    rw [Content.tuples_addKeys] at hnodup'
    refine (hset.trans (hadd.mono (List.nil_subset _)) ?_ hnodup').congr (Content.tuples_addKeys ..)
    intro rid hrid
    rw [List.mem_singleton.mp hrid]
    exact ⟨raw, stamp.mem⟩

theorem RowStep.spares {a : RowAct} (h : RowStep C tr mgr table txn a c c')
    (hnodup : ((c.tuples table.name).map (·.1)).Nodup) : Spares a.targets table.name c c' := by
  obtain hpart | ⟨rid, raw, new, rfl, -, rfl⟩ := h.cases
  · exact hpart.spares hnodup
  · exact spares_set ..

/-- One row after the other, all of which are found at first. -/
theorem RowSteps.spares {acts : List RowAct} (h : RowSteps C tr mgr table txn acts c c')
    (hnodup : ((c.tuples table.name).map (·.1)).Nodup)
    (hhas : ∀ rid ∈ rids, c.HasRid table.name rid) (hsub : ∀ a ∈ acts, a.targets ⊆ rids) :
    Spares rids table.name c c' := by
  induction h with
  | nil => exact .refl ..
  | cons step rest ih =>
    rw [List.forall_mem_cons] at hsub
    have hevolves := step.evolves hnodup
    have hrest := ih hevolves.nodup (fun rid hrid => step.hasRid (hhas rid hrid)) hsub.2
    exact ((step.spares hnodup).mono hsub.1).trans hrest hhas (rest.evolves hevolves.nodup).nodup

theorem Raised.spares {acts : List RowAct} (h : Raised C tr taken acts db v table txn db' v')
    (hnodup : ((v.tuples table.name).map (·.1)).Nodup)
    (hhas : ∀ rid ∈ rids, v.HasRid table.name rid) (hsub : ∀ a ∈ acts, a.targets ⊆ rids) :
    Spares rids table.name v.toContent v'.toContent := by
  obtain ⟨done, a, rest, c, rfl, hsteps, hend⟩ := h.steps
  have hevolves := hsteps.evolves hnodup
  have hdone := hsteps.spares hnodup hhas fun a ha => hsub a (List.mem_append_left _ ha)
  obtain ⟨heq, -⟩ | hpart := hend
  · exact heq ▸ hdone
  · have hlast := (hpart.spares hevolves.nodup).mono (hsub a (by simp))
    exact hdone.trans hlast hhas (hpart.evolves hevolves.nodup).nodup

theorem Sound.stored_inj (hs : Sound C tr db v) (h : Stored db t rid old) (h' : Stored db t rid new) :
    old = new := by
  obtain ⟨⟨table, ht⟩, hmem⟩ := hs.stored_iff.mp h
  exact eq_of_nodup (hs.layout.heap ht).nodup hmem (hs.stored_iff.mp h').2

/-- A version before and after a statement: its transaction may have stamped it, if it saw it. -/
def Marks (mgr : TransactionManager LogOp) (txn : Transaction) (old new : Tuple) : Prop :=
  new = old ∨ sees mgr txn.snapshot old = true ∧ new.xmin = old.xmin ∧ new.payload = old.payload ∧
    new.xmax = txn.txnId ∧ mgr.checkWriteConflict txn old.xmax = .ok ()

/-- What a statement does to the stored versions. -/
structure Rewrites (txn : Transaction) (db db' : Database) : Prop where
  kept : ∀ t rid old, Stored db t rid old → ∃ new, Stored db' t rid new ∧ Marks db.mgr txn old new
  fresh : ∀ t rid tup, Stored db' t rid tup → (∀ old, ¬Stored db t rid old) →
    tup.xmin = txn.txnId ∧ tup.xmax = infinityTxn

theorem Rewrites.refl (txn : Transaction) (db : Database) : Rewrites txn db db :=
  ⟨fun _ _ old h => ⟨old, h, .inl rfl⟩, fun _ _ tup h hnot => absurd h (hnot tup)⟩

theorem Marks.successor (h : Marks mgr txn old new) : Successor mgr txn old new := by
  obtain rfl | ⟨-, hxmin, hpayload, hxmax, hok⟩ := h
  · exact .refl ..
  · exact ⟨hxmin, hpayload, .inr ⟨hxmax, hok⟩⟩

theorem Marks.rowValues_eq (h : Marks mgr txn old new) : rowValues new = rowValues old := by
  rw [rowValues, rowValues, h.successor.payload]

/-- A stored version after a statement: one from before, or a new one. -/
theorem Rewrites.cases (h : Rewrites txn db db') (hs' : Sound C tr db' v') (hstored : Stored db' t rid new) :
    (∃ old, Stored db t rid old ∧ Marks db.mgr txn old new) ∨
      (∀ old, ¬Stored db t rid old) ∧ new.xmin = txn.txnId ∧ new.xmax = infinityTxn := by
  by_cases hold : ∃ old, Stored db t rid old
  · obtain ⟨old, hold⟩ := hold
    obtain ⟨new', hnew', hmarks⟩ := h.kept t rid old hold
    rw [hs'.stored_inj hnew' hstored] at hmarks
    exact .inl ⟨old, hold, hmarks⟩
  · rw [not_exists] at hold
    exact .inr ⟨hold, h.fresh t rid new hstored hold⟩

end Database
end Minirel
